import HotPatch.Proofs.Patch.WrapperRun
import HotPatch.Proofs.Separators

/-!
# Numbers, positions and names

Records with instantiations are numbered in their order, and their wrappers are
requested by number and position. No two requests agree in both, so the names of
the wrappers are different.
-/

namespace HotPatch

/-- The records with instantiations. -/
def filled (records : List GenericRecord) : List GenericRecord :=
  records.filter fun record => !record.instantiations.isEmpty

theorem filled_cons_of_empty {record : GenericRecord} (h : record.instantiations = [])
    (records : List GenericRecord) : filled (record :: records) = filled records :=
  List.filter_cons_of_neg (by simp [h])

theorem filled_cons {record : GenericRecord} (h : record.instantiations ≠ []) (records : List GenericRecord) :
    filled (record :: records) = record :: filled records :=
  List.filter_cons_of_pos (by simpa using h)

/-- An instantiation without its wrapper. -/
def Instantiation.bare (inst : Instantiation) : Instantiation := { inst with wrapper := none }

/-- What the scan found out about a record. -/
def GenericRecord.bare (record : GenericRecord) : GenericRecord :=
  { record with ordinal := none, instantiations := record.instantiations.map (·.bare) }

/-- The request for the instantiation at a position of a record with a number. -/
def requestFor (container : Token) (record : GenericRecord) (ordinal position : Nat)
    (inst : Instantiation) : WrapperRequest where
  container
  method := record.method
  ordinal
  position
  typeArgs := inst.typeArgs
  methodArgs := inst.methodArgs

section Equipment

variable {insts insts' : List Instantiation} {wrappers : List Token}

theorem Equipped.bare (h : Equipped insts wrappers insts') : insts'.map (·.bare) = insts.map (·.bare) := by
  induction h with
  | nil => rfl
  | cons wrapper _ ih =>
    rw [List.map_cons, List.map_cons, ih]
    rfl

theorem Equipped.ne_nil (h : Equipped insts wrappers insts') (hne : insts ≠ []) : insts' ≠ [] := by
  cases h with
  | nil => exact absurd rfl hne
  | cons wrapper rest => simp

/-- Each instantiation was requested at its position, and has the wrapper that came of it. -/
theorem Equipped.requested (h : Equipped insts wrappers insts') (request : WrapperRequest) (position : Nat)
    {index : Nat} {inst : Instantiation} (hi : insts'[index]? = some inst) :
    ∃ wrapper, inst.wrapper = some wrapper ∧
      ({ request with
          position := position + index, typeArgs := inst.typeArgs, methodArgs := inst.methodArgs }, wrapper) ∈
        (instantiationRequests request position insts).zip wrappers := by
  induction h generalizing position index with
  | nil => simp at hi
  | @cons first insts insts' wrappers wrapper _ ih =>
    rw [instantiationRequests, List.zip_cons_cons]
    cases index with
    | zero =>
      simp only [List.getElem?_cons_zero, Option.some.injEq] at hi
      subst hi
      exact ⟨wrapper, rfl, by simp⟩
    | succ index =>
      obtain ⟨other, ho, hm⟩ := ih (position + 1) (by simpa using hi)
      refine ⟨other, ho, List.mem_cons_of_mem _ ?_⟩
      rwa [show position + (index + 1) = position + 1 + index by omega]

theorem instantiationRequests_length (request : WrapperRequest) (position : Nat) (insts : List Instantiation) :
    (instantiationRequests request position insts).length = insts.length := by
  induction insts generalizing position with
  | nil => rfl
  | cons inst insts ih => simp [instantiationRequests, ih]

theorem Equipped.allArgs (h : Equipped insts wrappers insts') : insts'.map (·.allArgs) = insts.map (·.allArgs) := by
  induction h with
  | nil => rfl
  | cons wrapper _ ih =>
    rw [List.map_cons, List.map_cons, ih]
    rfl

theorem instantiationRequests_allArgs (request : WrapperRequest) (position : Nat) (insts : List Instantiation) :
    (instantiationRequests request position insts).map (fun request => request.typeArgs ++ request.methodArgs) =
      insts.map (·.allArgs) := by
  induction insts generalizing position with
  | nil => rfl
  | cons inst insts ih =>
    rw [instantiationRequests, List.map_cons, List.map_cons, ih]
    rfl

/-- The requests have the arguments of the instantiations. -/
theorem recordRequests_allArgs (container : Token) (first : Nat) (records : List GenericRecord) :
    (recordRequests container first records).map (fun request => request.typeArgs ++ request.methodArgs) =
      (records.flatMap (·.instantiations)).map (·.allArgs) := by
  induction records generalizing first with
  | nil => rfl
  | cons record records ih =>
    rw [recordRequests, List.flatMap_cons, List.map_append]
    split_ifs with he
    · rw [ih, List.isEmpty_iff.mp he, List.map_nil, List.nil_append]
    · rw [List.map_append, ih, instantiationRequests_allArgs]

end Equipment

namespace Numbered

variable {first : Nat} {records records' : List GenericRecord}

theorem bare (h : Numbered first records records') : records'.map (·.bare) = records.map (·.bare) := by
  induction h with
  | nil => rfl
  | skip _ _ ih => rw [List.map_cons, List.map_cons, ih]
  | number _ hequipped _ ih =>
    rw [List.map_cons, List.map_cons, ih, GenericRecord.bare, GenericRecord.bare, hequipped.bare]

theorem allArgs (h : Numbered first records records') :
    (records'.flatMap (·.instantiations)).map (·.allArgs) =
      (records.flatMap (·.instantiations)).map (·.allArgs) := by
  induction h with
  | nil => rfl
  | skip _ _ ih => rw [List.flatMap_cons, List.flatMap_cons, List.map_append, List.map_append, ih]
  | number _ hequipped _ ih =>
    rw [List.flatMap_cons, List.flatMap_cons, List.map_append, List.map_append, ih, hequipped.allArgs]

theorem lengths (h : Numbered first records records') :
    (records'.map fun record => record.instantiations.length) =
      records.map fun record => record.instantiations.length := by
  have hlength : ∀ list : List GenericRecord, (list.map fun record => record.instantiations.length) =
      (list.map (·.bare)).map fun record => record.instantiations.length := by
    intro list
    rw [List.map_map]
    refine List.map_congr_left fun record _ => ?_
    simp [GenericRecord.bare]
  rw [hlength records', h.bare, ← hlength records]

theorem ordinal_isSome (h : Numbered first records records') (hn : ∀ record ∈ records, record.ordinal = none) :
    ∀ record ∈ records', (record.ordinal.isSome ↔ record.instantiations ≠ []) := by
  induction h with
  | nil => simp
  | @skip _ record _ _ hempty _ ih =>
    intro other ho
    rcases List.mem_cons.mp ho with rfl | ho
    · rw [hn other (by simp), hempty]
      simp
    · exact ih (fun last hl => hn last (by simp [hl])) other ho
  | number hne hequipped _ ih =>
    intro other ho
    rcases List.mem_cons.mp ho with rfl | ho
    · simpa using hequipped.ne_nil hne
    · exact ih (fun last hl => hn last (by simp [hl])) other ho

/-- Records with instantiations are numbered in their order. -/
theorem ordinal (h : Numbered first records records') {index : Nat} {record : GenericRecord}
    (hr : (filled records')[index]? = some record) : record.ordinal = some (first + index) := by
  induction h generalizing index with
  | nil => simp [filled] at hr
  | skip hempty _ ih =>
    rw [filled_cons_of_empty hempty] at hr
    exact ih hr
  | number hne hequipped _ ih =>
    rw [filled_cons (hequipped.ne_nil hne)] at hr
    cases index with
    | zero =>
      simp only [List.getElem?_cons_zero, Option.some.injEq] at hr
      subst hr
      rfl
    | succ index =>
      rw [List.getElem?_cons_succ] at hr
      rw [ih hr]
      congr 1
      omega

/-- The wrapper at a position of a numbered record came of the request for it. -/
theorem requested (h : Numbered first records records') (container : Token) {index position : Nat}
    {record : GenericRecord} {inst : Instantiation} (hr : (filled records')[index]? = some record)
    (hi : record.instantiations[position]? = some inst) :
    ∃ wrapper, inst.wrapper = some wrapper ∧
      (requestFor container record (first + index) position inst, wrapper) ∈
        (recordRequests container first records).zip (wrappersOf records') := by
  induction h generalizing index with
  | nil => simp [filled] at hr
  | skip hempty _ ih =>
    rw [filled_cons_of_empty hempty] at hr
    rw [recordRequests, if_pos (by simp [hempty]), wrappersOf, List.flatMap_cons, hempty]
    exact ih hr
  | @number first old _ _ wrappers insts hne hequipped _ ih =>
    rw [filled_cons (hequipped.ne_nil hne)] at hr
    rw [recordRequests, if_neg (by simpa using hne), wrappersOf, List.flatMap_cons,
      hequipped.filterMap_wrapper, List.zip_append (by
        rw [instantiationRequests_length, hequipped.length_wrappers])]
    cases index with
    | zero =>
      simp only [List.getElem?_cons_zero, Option.some.injEq] at hr
      subst hr
      obtain ⟨wrapper, hw, hm⟩ := hequipped.requested
        { container, method := old.method, ordinal := first, position := 0 } 0 hi
      refine ⟨wrapper, hw, List.mem_append_left _ ?_⟩
      simpa [requestFor] using hm
    | succ index =>
      rw [List.getElem?_cons_succ] at hr
      obtain ⟨wrapper, hw, hm⟩ := ih hr
      refine ⟨wrapper, hw, List.mem_append_right _ ?_⟩
      rwa [show first + (index + 1) = first + 1 + index by omega]

end Numbered

section Distinctness

/-- Two requests are told apart by number and position. -/
def Apart (a b : WrapperRequest) : Prop := ¬(a.ordinal = b.ordinal ∧ a.position = b.position)

theorem le_position_of_mem {request other : WrapperRequest} {position : Nat} {insts : List Instantiation}
    (h : other ∈ instantiationRequests request position insts) :
    other.ordinal = request.ordinal ∧ position ≤ other.position := by
  induction insts generalizing position with
  | nil => cases h
  | cons inst insts ih =>
    rcases List.mem_cons.mp h with rfl | h
    · exact ⟨rfl, le_rfl⟩
    · obtain ⟨ho, hp⟩ := ih h
      exact ⟨ho, by omega⟩

theorem instantiationRequests_apart (request : WrapperRequest) (position : Nat)
    (insts : List Instantiation) : (instantiationRequests request position insts).Pairwise Apart := by
  induction insts generalizing position with
  | nil => exact .nil
  | cons inst insts ih =>
    refine .cons (fun other ho => ?_) (ih (position + 1))
    have hp := (le_position_of_mem ho).2
    rintro ⟨-, he⟩
    dsimp only at he
    omega

theorem le_ordinal_of_mem {container : Token} {first : Nat} {records : List GenericRecord}
    {request : WrapperRequest} (h : request ∈ recordRequests container first records) :
    first ≤ request.ordinal := by
  induction records generalizing first with
  | nil => cases h
  | cons record records ih =>
    rw [recordRequests] at h
    split_ifs at h
    · exact ih h
    · rcases List.mem_append.mp h with h | h
      · exact (le_position_of_mem h).1.ge
      · exact Nat.le_of_succ_le (ih h)

theorem recordRequests_apart (container : Token) (first : Nat) (records : List GenericRecord) :
    (recordRequests container first records).Pairwise Apart := by
  induction records generalizing first with
  | nil => exact .nil
  | cons record records ih =>
    rw [recordRequests]
    split_ifs
    · exact ih first
    · refine List.pairwise_append.mpr ⟨instantiationRequests_apart _ _ _, ih (first + 1), ?_⟩
      intro a ha b hb
      have hle := le_ordinal_of_mem hb
      rintro ⟨he, -⟩
      rw [(le_position_of_mem ha).1] at he
      dsimp only at he
      omega

/-- Wrappers for different numbers or positions have different names. -/
theorem wrapperName_inj {method other : String} {ordinal ordinal' position position' : Nat}
    (h : wrapperName method ordinal position = wrapperName other ordinal' position') :
    ordinal = ordinal' ∧ position = position' := by
  obtain ⟨h, hp⟩ := append_separator_inj (notMem_toString position) (notMem_toString position') h
  obtain ⟨-, ho⟩ := append_separator_inj (notMem_toString ordinal) (notMem_toString ordinal') h
  exact ⟨toString_inj ho, toString_inj hp⟩

/-- The name of a method, if it has a row. -/
def methodName? (module : Module) (method : Token) : Option String := (module.method? method).map (·.name)

/-- No two wrappers have the same name. -/
theorem nodup_names {module : Module} {requests : List WrapperRequest} {wrappers : List Token}
    (h : List.Forall₂ (Forwarded module) requests wrappers) (hp : requests.Pairwise Apart) :
    (wrappers.map (methodName? module)).Nodup := by
  induction h with
  | nil => exact .nil
  | @cons request wrapper requests wrappers hf hrest ih =>
    obtain ⟨hapart, hp⟩ := List.pairwise_cons.mp hp
    rw [List.map_cons, List.nodup_cons]
    refine ⟨fun hm => ?_, ih hp⟩
    obtain ⟨other, ho, he⟩ := List.mem_map.mp hm
    obtain ⟨request', hr, hf'⟩ := exists_of_mem_forall₂ hrest ho
    obtain ⟨row, method, hrow, -, -, hname, -, -⟩ := hf
    obtain ⟨row', method', hrow', -, -, hname', -, -⟩ := hf'
    rw [methodName?, methodName?, hrow, hrow', Option.map_some, Option.map_some, Option.some.injEq, hname,
      hname'] at he
    obtain ⟨hordinal, hposition⟩ := wrapperName_inj he
    exact hapart request' hr ⟨hordinal.symm, hposition.symm⟩

end Distinctness
end HotPatch
