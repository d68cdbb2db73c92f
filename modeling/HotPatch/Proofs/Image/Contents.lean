import HotPatch.Image.Write
import HotPatch.Proofs.Image.HeapSize
import HotPatch.Proofs.Module.MethodRows

/-!
# What the tables contain

Each row has contents: the bytes that it takes in its table, its strings and its
blobs. Writing rows succeeds if their blobs can be encoded and all of it stays
below the limits; afterwards tables and heaps have grown by the contents.
-/

namespace HotPatch.Image

/-- What is written: the number of bytes in tables, strings, blobs and numbers of rows. -/
structure Content where
  width : Nat := 0
  strings : List String := []
  blobs : List (Result Bytes) := []
  counts : List Nat := []

namespace Content

def append (first second : Content) : Content :=
  ⟨first.width + second.width, first.strings ++ second.strings, first.blobs ++ second.blobs,
    first.counts ++ second.counts⟩

instance : Append Content := ⟨append⟩

def concat : List Content → Content
  | [] => {}
  | first :: rest => first ++ concat rest

/-- The blobs as far as they can be encoded. -/
def encoded (content : Content) : List Bytes := content.blobs.filterMap (·.toOption)

variable {first second : Content} {contents : List Content}

@[simp] theorem width_append : (first ++ second).width = first.width + second.width := rfl

@[simp] theorem strings_append : (first ++ second).strings = first.strings ++ second.strings := rfl

@[simp] theorem blobs_append : (first ++ second).blobs = first.blobs ++ second.blobs := rfl

@[simp] theorem counts_append : (first ++ second).counts = first.counts ++ second.counts := rfl

@[simp] theorem encoded_append : (first ++ second).encoded = first.encoded ++ second.encoded := by
  simp [encoded]

theorem width_concat : (concat contents).width = (contents.map (·.width)).sum := by
  induction contents with
  | nil => rfl
  | cons first rest ih => rw [concat, width_append, ih, List.map_cons, List.sum_cons]

theorem mem_blobs_concat {blob : Result Bytes} :
    blob ∈ (concat contents).blobs ↔ ∃ content ∈ contents, blob ∈ content.blobs := by
  induction contents with
  | nil => simp [concat]
  | cons first rest ih => simp [concat, ih]

theorem mem_counts_concat {count : Nat} :
    count ∈ (concat contents).counts ↔ ∃ content ∈ contents, count ∈ content.counts := by
  induction contents with
  | nil => simp [concat]
  | cons first rest ih => simp [concat, ih]

theorem width_le_concat {content : Content} (h : content ∈ contents) :
    content.width ≤ (concat contents).width := by
  rw [width_concat]
  exact List.single_le_sum (fun _ _ => Nat.zero_le _) _ (List.mem_map_of_mem h)

def bytes (count : Nat) : Content := { width := count }

def count (length : Nat) : Content := { width := 4, counts := [length] }

def string (value : String) : Content := { width := 4, strings := [value] }

def blob (value : Result Bytes) : Content := { width := 4, blobs := [value] }

def strings4 (values : List String) : Content := bytes 4 ++ concat (values.map string)

def tokens (values : List Token) : Content := bytes 4 ++ concat (values.map fun _ => bytes 4)

def typeName (name : TypeName) : Content := string name.space ++ string name.simple

def scope : Scope → Content
  | .assembly name => bytes 1 ++ string name
  | .nested _ => bytes 1 ++ bytes 4

def typeRef (row : TypeRef) : Content := scope row.scope ++ typeName row.name

def typeDef (row : TypeDef) : Content :=
  bytes 4 ++ (typeName row.name ++ (bytes 4 ++ (bytes 4 ++ (strings4 row.generics ++
    (tokens row.fields ++ tokens row.methods)))))

def field (row : FieldDef) : Content :=
  bytes 4 ++ (bytes 2 ++ (string row.name ++ blob row.type.encodeField))

def method (row : MethodDef) : Content :=
  bytes 4 ++ (bytes 2 ++ (bytes 2 ++ (string row.name ++ (blob row.sig.encode ++
    (strings4 row.generics ++ bytes 4)))))

def memberRef (row : MemberRef) : Content := bytes 4 ++ (string row.name ++ blob row.sig.encode)

def customAttribute (row : CustomAttribute) : Content := bytes 4 ++ (bytes 4 ++ blob row.value.encode)

def methodSpec (row : MethodSpec) : Content :=
  bytes 4 ++ blob (TypeSig.encodeMethodInstantiation row.args)

theorem blobs_concat_of_none {α : Type} {items : List α} {content : α → Content}
    (h : ∀ item, (content item).blobs = []) : (concat (items.map content)).blobs = [] := by
  induction items with
  | nil => rfl
  | cons item items ih => rw [List.map_cons, concat, blobs_append, h, ih, List.append_nil]

theorem blobs_strings4 (values : List String) : (strings4 values).blobs = [] :=
  blobs_concat_of_none fun _ => rfl

theorem blobs_tokens (values : List Token) : (tokens values).blobs = [] :=
  blobs_concat_of_none fun _ : Token => (rfl : (bytes 4).blobs = [])

theorem blobs_typeRef (row : TypeRef) : (typeRef row).blobs = [] := by
  obtain ⟨name | enclosing, name⟩ := row <;> rfl

theorem blobs_typeDef (row : TypeDef) : (typeDef row).blobs = [] := by
  simp [typeDef, typeName, bytes, string, blobs_strings4, blobs_tokens]

theorem blobs_method (row : MethodDef) : (method row).blobs = [row.sig.encode] := by
  simp [method, bytes, string, blob, blobs_strings4]

/-- The contents of the rows of one table. -/
def rows (module : Module) : Table → List Content
  | .typeRef => module.typeRefs.toList.map typeRef
  | .typeDef => module.typeDefs.toList.map typeDef
  | .field => module.fields.toList.map field
  | .methodDef => module.methods.toList.map method
  | .memberRef => module.memberRefs.toList.map memberRef
  | .customAttribute => module.attributes.toList.map customAttribute
  | .standAloneSig => module.locals.toList.map fun row => blob (TypeSig.encodeLocals row.types)
  | .typeSpec => module.typeSpecs.toList.map fun row => blob row.sig.encode
  | .methodSpec => module.methodSpecs.toList.map methodSpec

/-- The tokens of methods are not written. -/
theorem map_methodRows (module : Module) :
    (module.methodRows.map fun row => method row.2) = rows module .methodDef := by
  rw [rows, ← Module.map_snd_methodRows, List.map_map, Function.comp_def]

/-- The tables that have rows. -/
def present (module : Module) : List Table := Table.all.filter fun table => 0 < module.rowCount table

theorem length_rows (module : Module) (table : Table) : (rows module table).length = module.rowCount table := by
  cases table <;> simp [rows, Module.rowCount]

theorem mem_present {module : Module} {table : Table} : table ∈ present module ↔ 0 < module.rowCount table := by
  have hall : table ∈ Table.all := by cases table <;> decide
  simp [present, hall]

/-- The contents of all tables behind the number of tables and the numbers of rows. -/
def tables (module : Module) : Content :=
  bytes 1 ++ (concat ((present module).map fun table => bytes 1 ++ count (module.rowCount table)) ++
    concat ((present module).map fun table => concat (rows module table)))

end Content

/-- Both heaps have the sizes that their values call for. -/
structure TableWriter.Sized (state : TableWriter) : Prop where
  strings : state.strings.Sized stringWeight
  blobs : state.blobs.Sized blobWeight

/-- The state after something was written. -/
structure TableWriter.Wrote (state : TableWriter) (content : Content) (next : TableWriter) : Prop
    extends next.Sized where
  width : next.rows.length = state.rows.length + content.width
  stringKeys : next.strings.keys = state.strings.keys ∪ filled "" content.strings
  blobKeys : next.blobs.keys = state.blobs.keys ∪ filled [] content.encoded
  encodes : ∀ blob ∈ content.blobs, ∃ bytes, blob = .ok bytes
  counts : ∀ count ∈ content.counts, count < sizeLimit

/-- There is room for what is to be written. -/
structure TableWriter.Room (state : TableWriter) (content : Content) : Prop where
  width : content.width < sizeLimit
  strings : heapSize stringWeight (state.strings.keys ∪ filled "" content.strings) < sizeLimit
  blobs : heapSize blobWeight (state.blobs.keys ∪ filled [] content.encoded) < sizeLimit
  encodes : ∀ blob ∈ content.blobs, ∃ bytes, blob = .ok bytes
  counts : ∀ count ∈ content.counts, count < sizeLimit

/-- An action writes the content, and succeeds if there is room for it. -/
structure Writes (action : WriteTables Unit) (content : Content) : Prop where
  wrote : ∀ state next, state.Sized → action.run state = .ok ((), next) → state.Wrote content next
  succeeds : ∀ state, state.Sized → state.Room content → ∃ next, action.run state = .ok ((), next)

namespace Writes

variable {first second : WriteTables Unit} {a b : Content}

theorem run_bind_eq_ok {α : Type} {action : WriteTables α} {next : α → WriteTables Unit}
    {state last : TableWriter} : (action >>= next).run state = .ok ((), last) ↔
      ∃ value middle, action.run state = .ok (value, middle) ∧ (next value).run middle = .ok ((), last) := by
  rw [StateT.run_bind, bind_eq_ok]
  exact ⟨fun ⟨⟨value, middle⟩, h, hn⟩ => ⟨value, middle, h, hn⟩, fun ⟨value, middle, h, hn⟩ => ⟨_, h, hn⟩⟩

theorem nothing : Writes (pure ()) {} where
  wrote state next hs h := by
    cases h
    exact ⟨hs, rfl, by simp [filled], by simp [filled, Content.encoded], by simp, by simp⟩
  succeeds state _ _ := ⟨state, rfl⟩

theorem bind (h : Writes first a) (h' : Writes second b) : Writes (do first; second) (a ++ b) where
  wrote state last hs hr := by
    obtain ⟨⟨⟩, middle, hf, hn⟩ := run_bind_eq_ok.mp hr
    have hw := h.wrote state middle hs hf
    have hw' := h'.wrote middle last hw.toSized hn
    refine ⟨hw'.toSized, ?_, ?_, ?_, fun blob hb => ?_, fun count hc => ?_⟩
    · rw [hw'.width, hw.width, Content.width_append, Nat.add_assoc]
    · rw [hw'.stringKeys, hw.stringKeys, Content.strings_append, filled_append, Finset.union_assoc]
    · rw [hw'.blobKeys, hw.blobKeys, Content.encoded_append, filled_append, Finset.union_assoc]
    · rw [Content.blobs_append, List.mem_append] at hb
      exact hb.elim (hw.encodes blob) (hw'.encodes blob)
    · rw [Content.counts_append, List.mem_append] at hc
      exact hc.elim (hw.counts count) (hw'.counts count)
  succeeds state hs hr := by
    have hwidth := hr.width
    rw [Content.width_append] at hwidth
    have hstrings := hr.strings
    rw [Content.strings_append, filled_append, ← Finset.union_assoc] at hstrings
    have hblobs := hr.blobs
    rw [Content.encoded_append, filled_append, ← Finset.union_assoc] at hblobs
    have hencodes := hr.encodes
    rw [Content.blobs_append, List.forall_mem_append] at hencodes
    have hcounts := hr.counts
    rw [Content.counts_append, List.forall_mem_append] at hcounts
    obtain ⟨middle, hm⟩ := h.succeeds state hs ⟨by omega,
      Nat.lt_of_le_of_lt (heapSize_mono _ Finset.subset_union_left) hstrings,
      Nat.lt_of_le_of_lt (heapSize_mono _ Finset.subset_union_left) hblobs, hencodes.1, hcounts.1⟩
    have hw := h.wrote state middle hs hm
    obtain ⟨last, hl⟩ := h'.succeeds middle hw.toSized ⟨by omega, by rwa [hw.stringKeys],
      by rwa [hw.blobKeys], hencodes.2, hcounts.2⟩
    exact ⟨last, run_bind_eq_ok.mpr ⟨(), middle, hm, hl⟩⟩

theorem forM {α : Type} {items : List α} {step : α → WriteTables Unit} {content : α → Content}
    (h : ∀ item ∈ items, Writes (step item) (content item)) :
    Writes (items.forM step) (Content.concat (items.map content)) := by
  induction items with
  | nil => exact nothing
  | cons item items ih =>
    rw [List.forM_eq_forM, List.forM_cons, List.map_cons, Content.concat]
    exact (h item (by simp)).bind (ih fun other ho => h other (by simp [ho]))

theorem put (bytes : Bytes) : Writes (WriteTables.put bytes) (Content.bytes bytes.length) where
  wrote state next hs h := by
    cases h
    refine ⟨⟨hs.strings, hs.blobs⟩, ?_, ?_, ?_, by simp [Content.bytes], by simp [Content.bytes]⟩
    · simp [TableWriter.rows, Content.bytes]
    · simp [filled, Content.bytes]
    · simp [filled, Content.bytes, Content.encoded]
  succeeds state _ _ := ⟨_, rfl⟩

theorem word (value : Nat) : Writes (WriteTables.word value) (Content.bytes 4) := put _

theorem half (value : Nat) : Writes (WriteTables.half value) (Content.bytes 2) := put _

theorem run_string_eq_ok {value : String} {state next : TableWriter} :
    (WriteTables.string value).run state = .ok ((), next) ↔ ∃ offset strings,
      StringHeap.add state.strings value = .ok (offset, strings) ∧
      { state with strings, pieces := Bytes.littleEndian 4 offset :: state.pieces } = next := by
  have hrun : (WriteTables.string value).run state = (StringHeap.add state.strings value).map fun added =>
      ((), { state with strings := added.2, pieces := Bytes.littleEndian 4 added.1 :: state.pieces }) := by
    unfold WriteTables.string
    rw [StateT.run_bind, StateT.run_get, pure_bind]
    dsimp only
    rw [StateT.run_bind]
    change (StringHeap.add state.strings value >>= fun added => pure (added, state)) >>= _ = _
    rcases StringHeap.add state.strings value with error | ⟨offset, strings⟩ <;> rfl
  rw [hrun, map_eq_ok]
  simp

theorem string (value : String) : Writes (WriteTables.string value) (Content.string value) where
  wrote state next hs h := by
    obtain ⟨offset, strings, ha, rfl⟩ := run_string_eq_ok.mp h
    obtain ⟨hsized, hkeys⟩ := add_string_ok hs.strings ha
    exact ⟨⟨hsized, hs.blobs⟩, by simp [TableWriter.rows, Content.string], hkeys,
      by simp [filled, Content.string, Content.encoded], by simp [Content.string],
      by simp [Content.string]⟩
  succeeds state hs hr := by
    obtain ⟨offset, strings, ha⟩ := exists_add_string hs.strings hr.strings
    exact ⟨_, run_string_eq_ok.mpr ⟨offset, strings, ha, rfl⟩⟩

theorem run_blob_eq_ok {value : Result Bytes} {state next : TableWriter} :
    (WriteTables.blob value).run state = .ok ((), next) ↔ ∃ bytes offset blobs, value = .ok bytes ∧
      BlobHeap.add state.blobs bytes = .ok (offset, blobs) ∧
      { state with blobs, pieces := Bytes.littleEndian 4 offset :: state.pieces } = next := by
  have hrun : (WriteTables.blob value).run state = value >>= fun bytes =>
      (BlobHeap.add state.blobs bytes).map fun added =>
        ((), { state with blobs := added.2, pieces := Bytes.littleEndian 4 added.1 :: state.pieces }) := by
    unfold WriteTables.blob
    rw [StateT.run_bind, StateT.run_get, pure_bind]
    dsimp only
    rw [StateT.run_bind]
    rcases value with error | bytes
    · rfl
    · change (BlobHeap.add state.blobs bytes >>= fun added => pure (added, state)) >>= _ =
        (BlobHeap.add state.blobs bytes).map _
      rcases BlobHeap.add state.blobs bytes with error | ⟨offset, blobs⟩ <;> rfl
  rw [hrun, bind_eq_ok]
  simp only [map_eq_ok]
  simp

theorem blob (value : Result Bytes) : Writes (WriteTables.blob value) (Content.blob value) where
  wrote state next hs h := by
    obtain ⟨bytes, offset, blobs, rfl, ha, rfl⟩ := run_blob_eq_ok.mp h
    obtain ⟨hsized, hkeys⟩ := add_blob_ok hs.blobs ha
    exact ⟨⟨hs.strings, hsized⟩, by simp [TableWriter.rows, Content.blob],
      by simp [filled, Content.blob], hkeys, by simp [Content.blob], by simp [Content.blob]⟩
  succeeds state hs hr := by
    obtain ⟨bytes, rfl⟩ := hr.encodes value (by simp [Content.blob])
    obtain ⟨offset, blobs, ha⟩ := exists_add_blob hs.blobs hr.blobs
    exact ⟨_, run_blob_eq_ok.mpr ⟨bytes, offset, blobs, rfl, ha, rfl⟩⟩

theorem count (length : Nat) : Writes (WriteTables.count length) (Content.count length) where
  wrote state next hs h := by
    unfold WriteTables.count at h
    split_ifs at h with hlt
    · have hw := (word length).wrote state next hs h
      exact { hw with counts := by simpa [Content.count] using hlt }
    · cases h
  succeeds state hs hr := by
    have hlt := hr.counts length (by simp [Content.count])
    rw [WriteTables.count, if_pos hlt]
    exact ⟨_, rfl⟩

/-- A list is not longer than the bytes that it takes. -/
theorem counted {length : Nat} {action : WriteTables Unit} {content : Content} (h : Writes action content)
    (hle : length ≤ content.width) :
    Writes (do WriteTables.count length; action) (Content.bytes 4 ++ content) where
  wrote state next hs hr := by
    have hw := ((count length).bind h).wrote state next hs hr
    exact { hw with counts := fun number hn => hw.counts number (List.mem_cons_of_mem _ hn) }
  succeeds state hs hr := by
    have hwidth := hr.width
    rw [Content.width_append] at hwidth
    refine ((count length).bind h).succeeds state hs { hr with counts := fun number hn => ?_ }
    rcases List.mem_cons.mp hn with rfl | hn
    · omega
    · exact hr.counts number hn

theorem width_concat_const (count : Nat) {α : Type} (items : List α) {content : α → Content}
    (h : ∀ item, (content item).width = count) :
    (Content.concat (items.map content)).width = count * items.length := by
  rw [Content.width_concat, List.map_map]
  simp [Function.comp_def, h, Nat.mul_comm]

theorem strings (values : List String) : Writes (WriteTables.strings values) (Content.strings4 values) :=
  (forM fun value _ => string value).counted (by rw [width_concat_const 4 values fun _ => rfl]; omega)

theorem tokens (values : List Token) : Writes (WriteTables.tokens values) (Content.tokens values) := by
  have hwords : Writes (values.forM WriteTables.token) (Content.concat (values.map fun _ => Content.bytes 4)) :=
    forM fun value _ => word value.value.toNat
  exact hwords.counted (by rw [width_concat_const 4 values fun _ => rfl]; omega)

section Rows

theorem typeName (name : TypeName) : Writes (WriteTables.typeName name) (Content.typeName name) :=
  (string _).bind (string _)

theorem scope (value : Scope) : Writes (WriteTables.scope value) (Content.scope value) := by
  rcases value with name | enclosing
  · exact (put [0]).bind (string name)
  · exact (put [1]).bind (word _)

theorem typeRef (row : TypeRef) : Writes (WriteTables.typeRef row) (Content.typeRef row) :=
  (scope _).bind (typeName _)

theorem typeDef (row : TypeDef) : Writes (WriteTables.typeDef row) (Content.typeDef row) :=
  (word _).bind ((typeName _).bind ((word _).bind ((word _).bind ((strings _).bind
    ((tokens _).bind (tokens _))))))

theorem field (row : FieldDef) : Writes (WriteTables.field row) (Content.field row) :=
  (word _).bind ((half _).bind ((string _).bind (blob _)))

theorem method (bodyOffset : Nat) (row : MethodDef) :
    Writes (WriteTables.method bodyOffset row) (Content.method row) :=
  (word _).bind ((half _).bind ((half _).bind ((string _).bind ((blob _).bind
    ((strings _).bind (word _))))))

theorem memberRef (row : MemberRef) : Writes (WriteTables.memberRef row) (Content.memberRef row) :=
  (word _).bind ((string _).bind (blob _))

theorem customAttribute (row : CustomAttribute) :
    Writes (WriteTables.customAttribute row) (Content.customAttribute row) :=
  (word _).bind ((word _).bind (blob _))

theorem methodSpec (row : MethodSpec) : Writes (WriteTables.methodSpec row) (Content.methodSpec row) :=
  (word _).bind (blob _)

variable (module : Module)

theorem table (bodyOffset : Token → Nat) (table : Table) :
    Writes (WriteTables.table module bodyOffset table) (Content.concat (Content.rows module table)) := by
  cases table with
  | typeRef => exact forM fun row _ => typeRef row
  | typeDef => exact forM fun row _ => typeDef row
  | field => exact forM fun row _ => field row
  | methodDef =>
    rw [← Content.map_methodRows]
    exact forM fun pair _ => method _ pair.2
  | memberRef => exact forM fun row _ => memberRef row
  | customAttribute => exact forM fun row _ => customAttribute row
  | standAloneSig => exact forM fun row _ => blob _
  | typeSpec => exact forM fun row _ => blob _
  | methodSpec => exact forM fun row _ => methodSpec row

/-- The whole table section. -/
theorem all (bodyOffset : Token → Nat) :
    Writes (WriteTables.all module bodyOffset) (Content.tables module) :=
  (put _).bind (.bind (forM fun _ _ => (put _).bind (count _)) (forM fun table _ =>
    Writes.table module bodyOffset table))

end Rows
end Writes
end HotPatch.Image
