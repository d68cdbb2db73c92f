import Mathlib.Data.List.Basic
import Mathlib.Tactic

/-!
# Texts joined by separators

A part that does not contain the separator can be told from the joined text.
Numbers are such parts, and different numbers are written differently.
-/

namespace HotPatch

/-- What stands behind the last separator, and before it, can be told from the whole. -/
theorem append_separator_inj {separator : Char} {a b x y : String} (hx : separator ∉ x.toList)
    (hy : separator ∉ y.toList)
    (h : a ++ String.singleton separator ++ x = b ++ String.singleton separator ++ y) : a = b ∧ x = y := by
  have hl : ∀ (t : String) {e : String}, separator ∉ e.toList →
      (t ++ String.singleton separator ++ e).toList.splitOn separator =
        t.toList.splitOn separator ++ [e.toList] := by
    intro t e he
    have ht : (t ++ String.singleton separator ++ e).toList = t.toList ++ separator :: e.toList := by simp
    rw [ht, List.splitOn_append_cons_self, List.splitOn_eq_singleton he]
  have hxy : x = y := by
    have hc := hl a hx
    rw [h, hl b hy] at hc
    exact String.toList_inj.mp (by simpa using (List.append_inj_right' hc rfl).symm)
  subst hxy
  exact ⟨by simpa using h, rfl⟩

/-- What stands in front of the first separator, and behind it, can be told from the whole. -/
theorem append_first_separator_inj {α : Type} {separator : α} {a b x y : List α} (ha : separator ∉ a)
    (hb : separator ∉ b) (h : a ++ separator :: x = b ++ separator :: y) : a = b ∧ x = y := by
  rcases List.append_eq_append_iff.mp h with ⟨more, rfl, hmore⟩ | ⟨more, rfl, hmore⟩
  · rcases more with - | ⟨c, more⟩
    · exact ⟨(List.append_nil a).symm, by simpa using hmore⟩
    · obtain ⟨rfl, -⟩ := List.cons.inj hmore
      exact absurd (by simp) hb
  · rcases more with - | ⟨c, more⟩
    · exact ⟨List.append_nil b, by simpa using hmore.symm⟩
    · obtain ⟨rfl, -⟩ := List.cons.inj hmore
      exact absurd (by simp) ha

theorem toString_toList (n : Nat) : (toString n).toList = Nat.toDigits 10 n := by
  simp

theorem notMem_toString (n : Nat) : '_' ∉ (toString n).toList := by
  rw [toString_toList]
  intro h
  have hd := Nat.isDigit_of_mem_toDigits (by omega) (by omega) h
  exact absurd hd (by decide)

theorem toString_inj {m n : Nat} (h : toString m = toString n) : m = n := by
  have hd := congrArg String.toList h
  rw [toString_toList, toString_toList] at hd
  rw [← Nat.ofDigitChars_ten_toDigits (n := m), hd, Nat.ofDigitChars_ten_toDigits]

end HotPatch
