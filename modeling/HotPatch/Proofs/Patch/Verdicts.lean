import HotPatch.Patch.Classification
import Mathlib.Tactic

/-!
# Verdicts recorded one after another

The map keeps its methods in token order, each once, and with every method the
strongest verdict recorded for it. So a map only grows: methods are added, and
verdicts get stronger.
-/

namespace HotPatch

namespace Classification

theorem rank_merge (a b : Classification) : (a.merge b).rank = max a.rank b.rank := by
  cases a <;> cases b <;> rfl

theorem rank_injective : Function.Injective rank := by
  intro a b h
  cases a <;> cases b <;> first | rfl | cases h

theorem merge_eq_or (a b : Classification) : a.merge b = a ∨ a.merge b = b := by
  unfold merge
  split_ifs
  · exact .inr rfl
  · exact .inl rfl

end Classification

/-- The strongest of the verdicts that a list holds for a method. -/
def Strongest (verdicts : List (Token × Classification)) (method : Token) (kind : Classification) : Prop :=
  (method, kind) ∈ verdicts ∧ ∀ other, (method, other) ∈ verdicts → other.rank ≤ kind.rank

/-- Two verdicts that are both the strongest are the same. -/
theorem Strongest.unique {verdicts : List (Token × Classification)} {method : Token} {a b : Classification}
    (ha : Strongest verdicts method a) (hb : Strongest verdicts method b) : a = b :=
  Classification.rank_injective (le_antisymm (hb.2 a ha.1) (ha.2 b hb.1))

namespace ClassificationMap

variable {map : ClassificationMap} {method other : Token} {kind : Classification}

/-- The methods stand in token order. -/
def Ordered (map : ClassificationMap) : Prop := map.entries.Pairwise fun a b => a.1.value < b.1.value

theorem ordered_empty : Ordered {} := List.Pairwise.nil

theorem contains_iff : map.contains method ↔ ∃ kind, map.find? method = some kind :=
  Option.isSome_iff_exists

section Recording

variable {entries : List (Token × Classification)}

/-- Recording a verdict adds its method to the set of methods. -/
theorem map_recordEntry : (recordEntry method kind entries).map (·.1) =
    TokenSet.insert method (entries.map (·.1)) := by
  induction entries with
  | nil => rfl
  | cons first rest ih =>
    rw [recordEntry, List.map_cons, TokenSet.insert]
    split_ifs
    · rfl
    · rfl
    · exact congrArg (first.1 :: ·) ih

theorem pairwise_recordEntry (h : entries.Pairwise fun a b => a.1.value < b.1.value) :
    (recordEntry method kind entries).Pairwise fun a b => a.1.value < b.1.value := by
  rw [← List.pairwise_map (R := fun a b : Token => a.value < b.value)] at h ⊢
  rw [map_recordEntry]
  exact TokenSet.Ascending.insert h method

theorem find?_recordEntry (h : entries.Pairwise fun a b => a.1.value < b.1.value) :
    ((recordEntry method kind entries).find? (·.1 == other)).map (·.2) =
      if method = other then some (((entries.find? (·.1 == method)).map (·.2)).elim kind (·.merge kind))
      else (entries.find? (·.1 == other)).map (·.2) := by
  induction entries with
  | nil =>
    by_cases ho : method = other <;> simp [recordEntry, ho]
  | cons first rest ih =>
    obtain ⟨token, old⟩ := first
    obtain ⟨hfirst, hrest⟩ := List.pairwise_cons.mp h
    rw [recordEntry]
    by_cases heq : method = token
    · subst heq
      by_cases ho : method = other <;> simp [ho]
    · have htoken : (token == method) = false := by simpa using Ne.symm heq
      rw [if_neg heq]
      by_cases hlt : method.value < token.value
      · -- a smaller method is not among the entries
        have hnone : rest.find? (·.1 == method) = none := by
          refine List.find?_eq_none.mpr fun entry he hm => ?_
          have hgreater := UInt32.lt_trans hlt (hfirst entry he)
          rw [eq_of_beq hm] at hgreater
          exact UInt32.lt_irrefl _ hgreater
        rw [if_pos hlt]
        by_cases ho : method = other
        · subst ho
          simp [htoken, hnone]
        · simp [ho]
      · rw [if_neg hlt, List.find?_cons, List.find?_cons, List.find?_cons, htoken]
        by_cases ht : token = other
        · subst ht
          simp [heq]
        · have hother : (token == other) = false := by simpa using ht
          rw [hother]
          exact ih hrest

theorem Ordered.record (h : map.Ordered) (method : Token) (kind : Classification) :
    (map.record method kind).Ordered := pairwise_recordEntry h

/-- A method gets the stronger of its verdicts, and no other method changes. -/
theorem Ordered.find?_record (h : map.Ordered) :
    (map.record method kind).find? other =
      if method = other then some ((map.find? method).elim kind (·.merge kind)) else map.find? other :=
  find?_recordEntry h

theorem Ordered.contains_record (h : map.Ordered) :
    (map.record method kind).contains other ↔ method = other ∨ map.contains other := by
  rw [contains, h.find?_record, contains]
  by_cases he : method = other <;> simp [he]

end Recording

/-- Every method of one map is in the other one, with the same or a stronger verdict. -/
def Below (earlier later : ClassificationMap) : Prop :=
  ∀ method kind, earlier.find? method = some kind →
    ∃ stronger, later.find? method = some stronger ∧ kind.rank ≤ stronger.rank

namespace Below

variable {a b c : ClassificationMap}

theorem refl (a : ClassificationMap) : a.Below a := fun _ kind h => ⟨kind, h, le_rfl⟩

theorem trans (h : a.Below b) (h' : b.Below c) : a.Below c := by
  intro method kind hk
  obtain ⟨stronger, hs, hle⟩ := h method kind hk
  obtain ⟨last, hl, hle'⟩ := h' method stronger hs
  exact ⟨last, hl, hle.trans hle'⟩

theorem record (h : a.Ordered) (method : Token) (kind : Classification) : a.Below (a.record method kind) := by
  intro other old ho
  rw [h.find?_record]
  by_cases he : method = other
  · subst he
    exact ⟨old.merge kind, by simp [ho], by simp [Classification.rank_merge]⟩
  · exact ⟨old, by rw [if_neg he, ho], le_rfl⟩

end Below

section Lists

variable {verdicts : List (Token × Classification)}

theorem ofList_append_singleton (verdicts : List (Token × Classification)) (method : Token)
    (kind : Classification) : ofList (verdicts ++ [(method, kind)]) = (ofList verdicts).record method kind := by
  rw [ofList, List.foldl_append]
  rfl

theorem ordered_ofList (verdicts : List (Token × Classification)) : (ofList verdicts).Ordered := by
  induction verdicts using List.reverseRecOn with
  | nil => exact ordered_empty
  | append_singleton verdicts verdict ih =>
    rw [ofList_append_singleton]
    exact ih.record _ _

/-- What the map says about a method, by what was recorded for it. -/
theorem recorded_ofList (verdicts : List (Token × Classification)) (method : Token) :
    ((ofList verdicts).find? method = none → ∀ kind, (method, kind) ∉ verdicts) ∧
      ∀ kind, (ofList verdicts).find? method = some kind → Strongest verdicts method kind := by
  induction verdicts using List.reverseRecOn with
  | nil => exact ⟨fun _ => nofun, nofun⟩
  | append_singleton verdicts verdict ih =>
    obtain ⟨token, new⟩ := verdict
    obtain ⟨hnone, hsome⟩ := ih
    rw [ofList_append_singleton, (ordered_ofList verdicts).find?_record]
    by_cases ht : token = method
    · subst ht
      rw [if_pos rfl]
      refine ⟨nofun, fun kind hk => ?_⟩
      rw [Option.some.injEq] at hk
      subst hk
      rcases hf : (ofList verdicts).find? token with - | old
      · refine ⟨by simp, fun other ho => ?_⟩
        rcases List.mem_append.mp ho with ho | ho
        · exact absurd ho (hnone hf other)
        · cases List.mem_singleton.mp ho
          exact le_rfl
      · obtain ⟨hmem, hmax⟩ := hsome old hf
        refine ⟨?_, fun other ho => ?_⟩
        · rcases old.merge_eq_or new with he | he
          · simp [he, hmem]
          · simp [he]
        · rw [Option.elim_some, Classification.rank_merge]
          rcases List.mem_append.mp ho with ho | ho
          · exact le_max_of_le_left (hmax other ho)
          · cases List.mem_singleton.mp ho
            exact le_max_right _ _
    · have hsame : ∀ other, (method, other) ∈ verdicts ++ [(token, new)] ↔ (method, other) ∈ verdicts := by
        simp [Ne.symm ht]
      rw [if_neg ht]
      simp only [Strongest, hsame]
      exact ⟨hnone, hsome⟩

/-- The map holds, for each method, the strongest verdict that was recorded. -/
theorem find?_ofList (verdicts : List (Token × Classification)) (method : Token) (kind : Classification) :
    (ofList verdicts).find? method = some kind ↔ Strongest verdicts method kind := by
  obtain ⟨hnone, hsome⟩ := recorded_ofList verdicts method
  refine ⟨hsome kind, fun hstrongest => ?_⟩
  rcases hf : (ofList verdicts).find? method with - | found
  · exact absurd hstrongest.1 (hnone hf kind)
  · rw [(hsome found hf).unique hstrongest]

end Lists

end ClassificationMap
end HotPatch
