import HotPatch.Proofs.Bytes.Reading

/-!
# What readers accept

A reader is steady if it looks at nothing behind the bytes that it takes: more
bytes at the end of an input are left over, and the only failure that they can
mend is that of reading past the end. A reader recognizes spellings if it
succeeds exactly on the inputs that open with one, and answers what it means.
-/

namespace HotPatch

namespace Bytes

theorem take?_eq_some {count : Nat} {bytes front rest : Bytes} :
    take? count bytes = some (front, rest) ↔ front.length = count ∧ bytes = front ++ rest := by
  constructor
  · intro h
    obtain ⟨happend, hlength⟩ := append_of_take? h
    exact ⟨hlength, happend.symm⟩
  · rintro ⟨rfl, rfl⟩
    exact take?_append front rest

theorem ofLittleEndian_lt (bytes : Bytes) : ofLittleEndian bytes < 256 ^ bytes.length := by
  induction bytes with
  | nil => decide
  | cons byte bytes ih =>
    have hbyte := byte.toNat_lt
    rw [ofLittleEndian, List.length_cons, Nat.pow_succ]
    omega

theorem littleEndian_ofLittleEndian (bytes : Bytes) : littleEndian bytes.length (ofLittleEndian bytes) = bytes := by
  induction bytes with
  | nil => rfl
  | cons byte bytes ih =>
    have hbyte := byte.toNat_lt
    have hhigh : (byte.toNat + 256 * ofLittleEndian bytes) / 256 = ofLittleEndian bytes := by omega
    have hlow : UInt8.ofNat (byte.toNat + 256 * ofLittleEndian bytes) = byte := by
      apply UInt8.toNat_inj.mp
      rw [UInt8.toNat_ofNat']
      omega
    rw [ofLittleEndian, List.length_cons, littleEndian, hhigh, ih, hlow]

/-- Only the bytes of a text spell it. -/
theorem toText?_eq_some {bytes : Bytes} {text : String} : toText? bytes = some text ↔ bytes = ofText text := by
  constructor
  · intro h
    unfold toText? String.fromUTF8? at h
    split_ifs at h with hvalid
    cases h
    rfl
  · rintro rfl
    exact toText?_ofText text

end Bytes

variable {α β ι κ : Type} {reader : Reader α} {next : α → Reader β} {input : Bytes}

namespace Reader

theorem pure_eq_ok {value result : α} {rest : Bytes} :
    (pure value : Reader α) input = .ok (result, rest) ↔ value = result ∧ input = rest := by
  change Except.ok (value, input) = _ ↔ _
  rw [Except.ok.injEq, Prod.mk.injEq]

theorem bind_of_ok {value : α} {middle : Bytes} (h : reader input = .ok (value, middle)) :
    (reader >>= next) input = next value middle := by
  change (reader input >>= fun read => next read.1 read.2) = _
  rw [h]
  rfl

theorem bind_of_error {error : Error} (h : reader input = .error error) : (reader >>= next) input = .error error := by
  change (reader input >>= fun read => next read.1 read.2) = _
  rw [h]
  rfl

/-- Reading one after another succeeds if both do, the second on what the first leaves. -/
theorem bind_eq_ok {result : β} {rest : Bytes} : (reader >>= next) input = .ok (result, rest) ↔
    ∃ value middle, reader input = .ok (value, middle) ∧ next value middle = .ok (result, rest) :=
  HotPatch.bind_eq_ok.trans Prod.exists

end Reader

/-- What a run tells of a longer input. -/
structure Steady (reader : Reader α) : Prop where
  ok : ∀ {input value rest}, reader input = .ok (value, rest) →
    ∀ more, reader (input ++ more) = .ok (value, rest ++ more)
  error : ∀ {input error}, reader input = .error error → error ≠ .outOfBounds →
    ∀ more, reader (input ++ more) = .error error

namespace Steady

theorem pure (value : α) : Steady (Pure.pure value : Reader α) where
  ok h more := by
    cases h
    rfl
  error h := by cases h

theorem fail (cause : Malformed) : Steady (Reader.fail cause : Reader α) where
  ok h := by cases h
  error h _ more := h

theorem bind (h : Steady reader) (hn : ∀ value, Steady (next value)) : Steady (reader >>= next) where
  ok hrun more := by
    obtain ⟨value, middle, hfirst, hnext⟩ := Reader.bind_eq_ok.mp hrun
    exact Reader.bind_eq_ok.mpr ⟨value, middle ++ more, h.ok hfirst more, (hn value).ok hnext more⟩
  error {input error} hrun hne more := by
    rcases hfirst : reader input with found | ⟨value, middle⟩
    · rw [Reader.bind_of_error hfirst] at hrun
      cases hrun
      exact Reader.bind_of_error (h.error hfirst hne more)
    · rw [Reader.bind_of_ok hfirst] at hrun
      rw [Reader.bind_of_ok (h.ok hfirst more)]
      exact (hn value).error hrun hne more

theorem bytes (count : Nat) : Steady (Reader.bytes count) where
  ok {input value rest} h more := by
    unfold Reader.bytes at h ⊢
    rcases htake : input.take? count with - | ⟨front, back⟩ <;> rw [htake] at h <;> cases h
    obtain ⟨hlength, rfl⟩ := Bytes.take?_eq_some.mp htake
    rw [List.append_assoc, Bytes.take?_eq_some.mpr ⟨hlength, rfl⟩]
  error {input error} h hne := by
    unfold Reader.bytes at h
    rcases htake : input.take? count with - | ⟨front, back⟩ <;> rw [htake] at h <;> cases h
    exact absurd rfl hne

theorem number (width : Nat) : Steady (Reader.number width) := (bytes width).bind fun _ => pure _

theorem vector (count : Nat) : Steady (Reader.vector count) := (bytes count).bind fun _ => pure _

theorem times (h : Steady reader) (count : Nat) : Steady (Reader.times count reader) := by
  induction count with
  | zero => exact pure []
  | succ count ih => exact h.bind fun value => ih.bind fun values => pure (value :: values)

theorem counted (h : Steady reader) : Steady (Reader.counted reader) := (number 4).bind fun count => h.times count

/-- An input that is cut short of what is read from it ends too early. -/
theorem cut {front more : Bytes} {value : α} (h : Steady reader) (hread : reader (front ++ more) = .ok (value, []))
    (hmore : more ≠ []) : reader front = .error .outOfBounds := by
  rcases hfront : reader front with error | ⟨found, rest⟩
  · by_contra hne
    have herror := h.error hfront (fun he => hne (by rw [he])) more
    cases herror.symm.trans hread
  · have hok := (h.ok hfront more).symm.trans hread
    obtain ⟨-, hempty⟩ := Prod.mk.inj (Except.ok.inj hok)
    exact absurd (List.append_eq_nil_iff.mp hempty).2 hmore

end Steady

/-- The reader accepts the inputs that open with a spelling, and answers what the spelling means. -/
def Recognizes (reader : Reader α) (spell : ι → Bytes) (meaning : ι → α) : Prop :=
  ∀ input value rest, reader input = .ok (value, rest) ↔
    ∃ spelling, meaning spelling = value ∧ input = spell spelling ++ rest

/-- As many items as a 32-bit count can count. -/
abbrev Counted (α : Type) := { items : List α // items.length < 2 ^ 32 }

/-- The count, and the items one after another. -/
def Counted.bytes (spell : α → Bytes) (items : Counted α) : Bytes :=
  Bytes.littleEndian 4 items.val.length ++ items.val.flatMap spell

namespace Recognizes

variable {spell : ι → Bytes} {meaning : ι → α}

theorem bytes_eq_ok {count : Nat} {front rest : Bytes} :
    Reader.bytes count input = .ok (front, rest) ↔ front.length = count ∧ input = front ++ rest := by
  rw [← Bytes.take?_eq_some, Reader.bytes]
  rcases input.take? count with - | ⟨front', back⟩ <;> simp

/-- A field of fixed width holds every number that fits into it. -/
theorem number_eq_ok {width n : Nat} {rest : Bytes} : Reader.number width input = .ok (n, rest) ↔
    n < 256 ^ width ∧ input = Bytes.littleEndian width n ++ rest := by
  constructor
  · intro h
    obtain ⟨front, middle, hfront, hn⟩ := Reader.bind_eq_ok.mp h
    obtain ⟨rfl, rfl⟩ := bytes_eq_ok.mp hfront
    cases hn
    exact ⟨Bytes.ofLittleEndian_lt front, by rw [Bytes.littleEndian_ofLittleEndian]⟩
  · rintro ⟨hn, rfl⟩
    exact Reads.number hn rest

/-- A field that holds the numbers of a type. -/
theorem number_of {width : Nat} {toNat : ι → Nat} {ofNat : Nat → ι} (hlt : ∀ i, toNat i < 256 ^ width)
    (hof : ∀ n, n < 256 ^ width → toNat (ofNat n) = n) :
    Recognizes (Reader.number width) (fun i => Bytes.littleEndian width (toNat i)) toNat := by
  intro input n rest
  rw [number_eq_ok]
  constructor
  · rintro ⟨hn, rfl⟩
    exact ⟨ofNat n, hof n hn, congrArg (Bytes.littleEndian width · ++ rest) (hof n hn).symm⟩
  · rintro ⟨i, rfl, rfl⟩
    exact ⟨hlt i, rfl⟩

theorem word : Recognizes (Reader.number 4) (fun n : UInt32 => Bytes.littleEndian 4 n.toNat) UInt32.toNat :=
  number_of UInt32.toNat_lt fun _ => UInt32.toNat_ofNat_of_lt'

theorem halfWord : Recognizes (Reader.number 2) (fun n : UInt16 => Bytes.littleEndian 2 n.toNat) UInt16.toNat :=
  number_of UInt16.toNat_lt fun _ => UInt16.toNat_ofNat_of_lt'

theorem byte : Recognizes (Reader.number 1) (fun n : UInt8 => Bytes.littleEndian 1 n.toNat) UInt8.toNat :=
  number_of UInt8.toNat_lt fun _ => UInt8.toNat_ofNat_of_lt'

theorem vector (count : Nat) : Recognizes (Reader.vector count) (fun value => value.toList) id := by
  intro input value rest
  constructor
  · intro h
    obtain ⟨front, middle, hfront, -⟩ := Reader.bind_eq_ok.mp h
    obtain ⟨hlength, rfl⟩ := bytes_eq_ok.mp hfront
    have hread : Reader.vector count (front ++ middle) = .ok (⟨front.toArray, hlength⟩, middle) :=
      Reads.vector ⟨front.toArray, hlength⟩ middle
    cases hread.symm.trans h
    exact ⟨_, rfl, rfl⟩
  · rintro ⟨value, rfl, rfl⟩
    exact Reads.vector value rest

theorem reads (h : Recognizes reader spell meaning) (spelling : ι) :
    Reads reader (spell spelling) (meaning spelling) :=
  fun _ => (h _ _ _).mpr ⟨spelling, rfl, rfl⟩

/-- What comes next is read from what stands behind a spelling. -/
theorem bind_eq_ok (h : Recognizes reader spell meaning) {result : β} {rest : Bytes} :
    (reader >>= next) input = .ok (result, rest) ↔ ∃ spelling middle, input = spell spelling ++ middle ∧
      next (meaning spelling) middle = .ok (result, rest) := by
  rw [Reader.bind_eq_ok]
  constructor
  · rintro ⟨value, middle, hvalue, hnext⟩
    obtain ⟨spelling, rfl, rfl⟩ := (h _ _ _).mp hvalue
    exact ⟨spelling, middle, rfl, hnext⟩
  · rintro ⟨spelling, middle, rfl, hnext⟩
    exact ⟨meaning spelling, middle, (h _ _ _).mpr ⟨spelling, rfl, rfl⟩, hnext⟩

/-- As many items as are asked for. -/
theorem times_eq_ok (h : Recognizes reader spell meaning) {count : Nat} {values : List α} {rest : Bytes} :
    Reader.times count reader input = .ok (values, rest) ↔ ∃ spellings : List ι,
      spellings.length = count ∧ spellings.map meaning = values ∧ input = spellings.flatMap spell ++ rest := by
  induction count generalizing input values rest with
  | zero =>
    constructor
    · intro hrun
      cases hrun
      exact ⟨[], rfl, rfl, rfl⟩
    · rintro ⟨spellings, hlength, rfl, rfl⟩
      obtain rfl := List.length_eq_zero_iff.mp hlength
      rfl
  | succ count ih =>
    refine h.bind_eq_ok.trans ⟨?_, ?_⟩
    · rintro ⟨spelling, middle, rfl, hrun⟩
      obtain ⟨others, last, hothers, hvalues⟩ := Reader.bind_eq_ok.mp hrun
      obtain ⟨spellings, rfl, rfl, rfl⟩ := ih.mp hothers
      cases hvalues
      exact ⟨spelling :: spellings, rfl, rfl, by rw [List.flatMap_cons, List.append_assoc]⟩
    · rintro ⟨spellings, hlength, rfl, rfl⟩
      obtain ⟨spelling, spellings, rfl⟩ := List.exists_cons_of_length_eq_add_one hlength
      refine ⟨spelling, spellings.flatMap spell ++ rest, by rw [List.flatMap_cons, List.append_assoc], ?_⟩
      exact Reader.bind_eq_ok.mpr ⟨_, _, ih.mpr ⟨spellings, Nat.succ.inj hlength, rfl, rfl⟩, rfl⟩

theorem counted (h : Recognizes reader spell meaning) :
    Recognizes (Reader.counted reader) (Counted.bytes spell) (·.val.map meaning) := by
  intro input values rest
  refine Reader.bind_eq_ok.trans ⟨?_, ?_⟩
  · rintro ⟨count, middle, hcount, hrun⟩
    obtain ⟨hlt, rfl⟩ := number_eq_ok.mp hcount
    obtain ⟨spellings, rfl, rfl, rfl⟩ := h.times_eq_ok.mp hrun
    exact ⟨⟨spellings, hlt⟩, rfl, by rw [Counted.bytes, List.append_assoc]⟩
  · rintro ⟨⟨spellings, hlt⟩, rfl, rfl⟩
    refine ⟨spellings.length, spellings.flatMap spell ++ rest, number_eq_ok.mpr ⟨hlt, ?_⟩, ?_⟩
    · rw [Counted.bytes, List.append_assoc]
    · exact h.times_eq_ok.mpr ⟨spellings, rfl, rfl, rfl⟩

end Recognizes
end HotPatch
