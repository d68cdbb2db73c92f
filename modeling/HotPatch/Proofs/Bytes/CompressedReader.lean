import HotPatch.Proofs.Bytes.CompressedForms

/-!
# Reading compressed numbers and counted strings

A compressed number tells its own width, so a reader knows where it ends. No
such number starts with the byte that stands for the absent string, so the
first byte of a counted string tells whether there is one.
-/

namespace HotPatch

namespace Reader

/-- Exactly this byte. -/
def tag (expected : Nat) : Reader Unit := do
  let found ← number 1
  if found = expected then return () else throw .outOfBounds

/-- A compressed number. -/
def compressed : Reader Nat := fun input =>
  match Bytes.uncompress? input with
  | some (value, rest) => .ok (value, rest)
  | none => .error .outOfBounds

/-- The text of as many bytes as the compressed count in front says. -/
def text : Reader String := do
  let count ← compressed
  let encoded ← bytes count
  match Bytes.toText? encoded with
  | some text => return text
  | none => throw .outOfBounds

/-- A string that may be absent, which the byte 0xFF says in place of a count. -/
def countedText : Reader (Option String) := do
  if (← get).head? = some 0xFF then
    tag 0xFF
    return none
  else
    let text ← text
    return some text

end Reader

namespace Bytes

/-- A string behind a form of its length. -/
structure TextSpelling where
  count : Numeral
  text : String
  counts : count.value = (ofText text).length

namespace TextSpelling

def bytes (spelling : TextSpelling) : Bytes := spelling.count.bytes ++ ofText spelling.text

theorem length_le (spelling : TextSpelling) : (ofText spelling.text).length ≤ compressedMax :=
  spelling.counts ▸ spelling.count.value_le

/-- How a string that may be absent is spelled. -/
def bytesOrAbsent : Option TextSpelling → Bytes
  | some spelling => spelling.bytes
  | none => [0xFF]

/-- The spelling with the narrowest length. -/
def narrowest (text : String) (h : (ofText text).length ≤ compressedMax) : TextSpelling :=
  ⟨.narrowest (ofText text).length, text, Numeral.value_narrowest h⟩

theorem bytes_narrowest {text : String} (h : (ofText text).length ≤ compressedMax) :
    (narrowest text h).bytes = countedText (some text) := by
  rw [countedText, compressed_eq]
  rfl

/-- No form of a length starts as the absent string does. -/
theorem head?_eq_iff {spelling : Option TextSpelling} {rest : Bytes} :
    (bytesOrAbsent spelling ++ rest).head? = some 0xFF ↔ spelling = none := by
  cases spelling with
  | none => exact iff_of_true rfl rfl
  | some spelling =>
    obtain ⟨first, hfirst, hlow⟩ := spelling.count.exists_head_bytes
    have hhead : (bytesOrAbsent (some spelling) ++ rest).head? = some first := by
      rw [bytesOrAbsent, bytes, List.append_assoc, List.head?_append, hfirst, Option.some_or]
    refine iff_of_false (fun he => ?_) nofun
    cases he.symm.trans hhead
    exact absurd hlow (by decide)

end TextSpelling
end Bytes

open Bytes (Numeral TextSpelling)

namespace Recognizes

theorem compressed : Recognizes Reader.compressed Numeral.bytes Numeral.value := by
  intro input value rest
  rw [← Bytes.uncompress?_eq_some, Reader.compressed]
  rcases Bytes.uncompress? input with - | ⟨found, behind⟩ <;> simp

theorem text : Recognizes Reader.text TextSpelling.bytes TextSpelling.text := by
  intro input value rest
  refine compressed.bind_eq_ok.trans ⟨?_, ?_⟩
  · rintro ⟨count, middle, rfl, hrun⟩
    obtain ⟨encoded, behind, hencoded, hvalue⟩ := Reader.bind_eq_ok.mp hrun
    obtain ⟨hlength, rfl⟩ := bytes_eq_ok.mp hencoded
    rcases htext : Bytes.toText? encoded with - | text
    · rw [htext] at hvalue
      cases hvalue
    · rw [htext] at hvalue
      cases hvalue
      obtain rfl := Bytes.toText?_eq_some.mp htext
      exact ⟨⟨count, value, hlength.symm⟩, rfl, by rw [TextSpelling.bytes, List.append_assoc]⟩
  · rintro ⟨⟨count, text, counts⟩, rfl, rfl⟩
    refine ⟨count, Bytes.ofText text ++ rest, by rw [TextSpelling.bytes, List.append_assoc], ?_⟩
    have hencoded : Reader.bytes count.value (Bytes.ofText text ++ rest) = .ok (Bytes.ofText text, rest) :=
      bytes_eq_ok.mpr ⟨counts.symm, rfl⟩
    refine Reader.bind_eq_ok.mpr ⟨_, _, hencoded, ?_⟩
    rw [Bytes.toText?_ofText]
    rfl

theorem tag_eq_ok {expected : Nat} {input rest : Bytes} (h : expected < 256) :
    Reader.tag expected input = .ok ((), rest) ↔ input = UInt8.ofNat expected :: rest := by
  refine Reader.bind_eq_ok.trans ⟨?_, ?_⟩
  · rintro ⟨found, middle, hfound, hrun⟩
    obtain ⟨-, rfl⟩ := number_eq_ok.mp hfound
    split_ifs at hrun with he
    · cases hrun
      rw [he]
      rfl
    · cases hrun
  · rintro rfl
    exact ⟨expected, rest, number_eq_ok.mpr ⟨h, rfl⟩, by rw [if_pos rfl]; rfl⟩

/-- The first byte decides what the rest is read as. -/
theorem countedText_eq (input : Bytes) : Reader.countedText input =
    if input.head? = some 0xFF then (do Reader.tag 0xFF; return none : Reader (Option String)) input
    else (do let text ← Reader.text; return some text : Reader (Option String)) input :=
  apply_ite (fun reader : Reader (Option String) => reader input) _ _ _

theorem countedText :
    Recognizes Reader.countedText TextSpelling.bytesOrAbsent (Option.map TextSpelling.text) := by
  intro input value rest
  rw [countedText_eq]
  constructor
  · intro hrun
    split_ifs at hrun
    · obtain ⟨⟨⟩, middle, htag, hvalue⟩ := Reader.bind_eq_ok.mp hrun
      cases hvalue
      exact ⟨none, rfl, (tag_eq_ok (by decide)).mp htag⟩
    · obtain ⟨spelling, middle, rfl, hvalue⟩ := text.bind_eq_ok.mp hrun
      cases hvalue
      exact ⟨some spelling, rfl, rfl⟩
  · rintro ⟨spelling, rfl, rfl⟩
    cases spelling with
    | none =>
      rw [if_pos (TextSpelling.head?_eq_iff.mpr rfl)]
      exact Reader.bind_eq_ok.mpr ⟨(), rest, (tag_eq_ok (by decide)).mpr rfl, rfl⟩
    | some spelling =>
      rw [if_neg fun hhead => Option.some_ne_none spelling (TextSpelling.head?_eq_iff.mp hhead)]
      exact text.bind_eq_ok.mpr ⟨spelling, rest, rfl, rfl⟩

end Recognizes

namespace Reads

variable {α : Type} {encoded : Bytes} {value : α}

theorem tag {expected : Nat} (h : expected < 256) : Reads (Reader.tag expected) [UInt8.ofNat expected] () :=
  fun _ => (Recognizes.tag_eq_ok h).mpr rfl

theorem compressed {value : Nat} (h : value ≤ Bytes.compressedMax) :
    Reads Reader.compressed (Bytes.compressed value) value := by
  have hreads := Recognizes.compressed.reads (.narrowest value)
  rwa [Numeral.value_narrowest h, ← Bytes.compressed_eq] at hreads

theorem text {text : String} (h : (Bytes.ofText text).length ≤ Bytes.compressedMax) :
    Reads Reader.text (Bytes.countedText (some text)) text := by
  rw [← TextSpelling.bytes_narrowest h]
  exact Recognizes.text.reads (.narrowest text h)

/-- The absent string, the empty one and all others are told apart. -/
theorem countedText {value : Option String}
    (h : ∀ text, value = some text → (Bytes.ofText text).length ≤ Bytes.compressedMax) :
    Reads Reader.countedText (Bytes.countedText value) value := by
  cases value with
  | none => exact Recognizes.countedText.reads none
  | some text =>
    rw [← TextSpelling.bytes_narrowest (h text rfl)]
    exact Recognizes.countedText.reads (some (.narrowest text (h text rfl)))

/-- A step that looks at what is left without taking anything. -/
theorem look {next : Bytes → Reader α} (h : ∀ rest, Reads (next (encoded ++ rest)) encoded value) :
    Reads (do next (← get)) encoded value := fun rest => h rest rest

end Reads
end HotPatch
