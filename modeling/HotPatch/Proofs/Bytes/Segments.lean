import HotPatch.Proofs.Bytes.CompressedReader
import HotPatch.Proofs.Bytes.Recognition

/-!
# What encoders put out

An encoder puts out bytes as they are and numbers in compressed form. Its
segments keep the two apart, so that it can be asked whether each number has a
compressed form: a greater one is written as if it were the greatest. Readers
cannot answer with such a number, so from the bytes it does not come back.
-/

namespace HotPatch

/-- Bytes that are written as they are, or a number that is written in compressed form. -/
inductive Segment where
  | plain (bytes : Bytes)
  | number (value : Nat)

namespace Segment

variable {segments more : List Segment} {encoded : Bytes} {value : Nat}

def bytes : Segment → Bytes
  | plain bytes => bytes
  | number value => Bytes.compressed value

/-- The segments one behind the other. -/
def write (segments : List Segment) : Bytes := segments.flatMap bytes

@[simp] theorem write_nil : write [] = [] := rfl

@[simp] theorem write_plain : write (.plain encoded :: segments) = encoded ++ write segments := rfl

@[simp] theorem write_number : write (.number value :: segments) = Bytes.compressed value ++ write segments := rfl

@[simp] theorem write_append : write (segments ++ more) = write segments ++ write more := List.flatMap_append

/-- Every number has a compressed form. -/
def Unclamped (segments : List Segment) : Prop := ∀ value, .number value ∈ segments → value ≤ Bytes.compressedMax

@[simp] theorem unclamped_nil : Unclamped [] := nofun

@[simp] theorem unclamped_plain : Unclamped (.plain encoded :: segments) ↔ Unclamped segments := by
  simp [Unclamped]

@[simp] theorem unclamped_number :
    Unclamped (.number value :: segments) ↔ value ≤ Bytes.compressedMax ∧ Unclamped segments := by
  simp [Unclamped, or_imp, forall_and]

@[simp] theorem unclamped_append : Unclamped (segments ++ more) ↔ Unclamped segments ∧ Unclamped more := by
  simp [Unclamped, or_imp, forall_and]

/-- A string that may be absent, behind its length. -/
def text : Option String → List Segment
  | some text => [.number (Bytes.ofText text).length, .plain (Bytes.ofText text)]
  | none => [.plain [0xFF]]

@[simp] theorem write_text (value : Option String) : write (text value) = Bytes.countedText value := by
  cases value <;> simp [text, Bytes.countedText]

theorem unclamped_text {value : Option String} : Unclamped (text value) ↔
    ∀ found, value = some found → (Bytes.ofText found).length ≤ Bytes.compressedMax := by
  cases value <;> simp [text]

section Lists

variable {α : Type} {encode : α → Result Bytes} {parts : α → Result (List Segment)} {items : List α}

/-- The segments of items stand one behind the other as their encodings do. -/
theorem write_mapM (h : ∀ item ∈ items, encode item = write <$> parts item) :
    List.flatten <$> items.mapM encode = (fun pieces => write pieces.flatten) <$> items.mapM parts := by
  induction items with
  | nil => rfl
  | cons item items ih =>
    rw [List.forall_mem_cons] at h
    have hrest (front : Bytes) : (fun pieces => front ++ pieces.flatten) <$> items.mapM encode =
        (fun pieces => front ++ write pieces.flatten) <$> items.mapM parts := by
      simpa using congrArg ((front ++ ·) <$> ·) (ih h.2)
    simp [List.mapM_cons, h.1, hrest]

theorem unclamped_mapM {narrow : α → Prop} {pieces : List (List Segment)}
    (h : ∀ item ∈ items, ∀ written, parts item = .ok written → (Unclamped written ↔ narrow item))
    (hp : items.mapM parts = .ok pieces) : Unclamped pieces.flatten ↔ ∀ item ∈ items, narrow item := by
  have hall := mapM_eq_ok.mp hp
  clear hp
  induction hall with
  | nil => simp
  | cons hfirst _ ih =>
    rw [List.forall_mem_cons] at h ⊢
    rw [List.flatten_cons, unclamped_append]
    exact and_congr (h.1 _ hfirst) (ih h.2)

end Lists

end Segment

/-- Whatever the reader answers has the property. -/
def Yields {α : Type} (reader : Reader α) (p : α → Prop) : Prop :=
  ∀ input value rest, reader input = .ok (value, rest) → p value

namespace Yields

variable {α β : Type} {reader : Reader α} {next : α → Reader β} {p : α → Prop} {q : β → Prop} {value : α}

theorem pure (h : p value) : Yields (Pure.pure value) p := by
  intro input found rest hrun
  obtain ⟨rfl, -⟩ := Reader.pure_eq_ok.mp hrun
  exact h

theorem throw (error : Error) : Yields (throw error : Reader α) p := nofun

theorem any (reader : Reader α) : Yields reader fun _ => True := fun _ _ _ _ => trivial

theorem bind (h : Yields reader p) (hn : ∀ value, p value → Yields (next value) q) : Yields (reader >>= next) q := by
  intro input found rest hrun
  obtain ⟨value, middle, hfirst, hnext⟩ := Reader.bind_eq_ok.mp hrun
  exact hn value (h input value middle hfirst) middle found rest hnext

/-- Nothing is asked of the first step. -/
theorem after {reader : Reader α} (hn : ∀ value, Yields (next value) q) : Yields (reader >>= next) q :=
  (any reader).bind fun value _ => hn value

theorem mono {p' : α → Prop} (h : Yields reader p) (hp : ∀ value, p value → p' value) : Yields reader p' :=
  fun input value rest hrun => hp value (h input value rest hrun)

theorem times (h : Yields reader p) (count : Nat) :
    Yields (Reader.times count reader) fun values => values.length = count ∧ ∀ value ∈ values, p value := by
  induction count with
  | zero => exact pure ⟨rfl, List.forall_mem_nil _⟩
  | succ count ih =>
    refine h.bind fun value hvalue => ih.bind fun values hvalues => pure ⟨?_, ?_⟩
    · rw [List.length_cons, hvalues.1]
    · exact List.forall_mem_cons.mpr ⟨hvalue, hvalues.2⟩

/-- Every spelling means something that has the property. -/
theorem of_recognizes {ι : Type} {spell : ι → Bytes} {meaning : ι → α} (h : Recognizes reader spell meaning)
    (hp : ∀ spelling, p (meaning spelling)) : Yields reader p := by
  intro input value rest hrun
  obtain ⟨spelling, rfl, -⟩ := (h input value rest).mp hrun
  exact hp spelling

theorem compressed : Yields Reader.compressed (· ≤ Bytes.compressedMax) :=
  of_recognizes Recognizes.compressed Bytes.Numeral.value_le

theorem text : Yields Reader.text fun text => (Bytes.ofText text).length ≤ Bytes.compressedMax :=
  of_recognizes Recognizes.text Bytes.TextSpelling.length_le

theorem countedText : Yields Reader.countedText fun value =>
    ∀ text, value = some text → (Bytes.ofText text).length ≤ Bytes.compressedMax := by
  refine of_recognizes Recognizes.countedText fun spelling text htext => ?_
  obtain ⟨spelled, -, rfl⟩ := Option.map_eq_some_iff.mp htext
  exact spelled.length_le

/-- What is read back has the property of all that is read. -/
theorem of_reads {encoded : Bytes} (h : Yields reader p) (hread : Reads reader encoded value) : p value :=
  h _ value [] (hread [])

end Yields

/-- What an encoder puts out of a value, in segments. All numbers in them have compressed forms exactly if the
value is narrow, and exactly then does the reader take the value back from its blob. -/
structure Puts {α : Type} (encode : α → Result Bytes) (segments : α → Result (List Segment)) (reader : Reader α)
    (narrow : α → Prop) (value : α) : Prop where
  encode_eq : encode value = Segment.write <$> segments value
  unclamped_iff : ∀ written, segments value = .ok written → (Segment.Unclamped written ↔ narrow value)
  reads_iff : ∀ blob, encode value = .ok blob → (Reads reader blob value ↔ narrow value)

theorem Puts.of_reads {α : Type} {encode : α → Result Bytes} {segments : α → Result (List Segment)}
    {reader : Reader α} {narrow : α → Prop} {value : α} (hencode : encode value = Segment.write <$> segments value)
    (hunclamped : ∀ written, segments value = .ok written → (Segment.Unclamped written ↔ narrow value))
    (hreads : ∀ blob, narrow value → encode value = .ok blob → Reads reader blob value)
    (hyields : Yields reader narrow) : Puts encode segments reader narrow value where
  encode_eq := hencode
  unclamped_iff := hunclamped
  reads_iff blob hblob := ⟨hyields.of_reads, fun hnarrow => hreads blob hnarrow hblob⟩

end HotPatch
