import HotPatch.Patch.Wrapper
import HotPatch.Proofs.Module.StableImport
import HotPatch.Proofs.Module.StableNames

/-!
# Runs of the wrapper generator

The generation of wrappers is a run of the generator over requests, one for each
instantiation, in the order of the records. A single step adds references and
then one method to the container; so a run extends the module by the wrappers,
in their order.
-/

namespace HotPatch

/-- A generator run on one request after another. -/
inductive Generates (generator : WrapperGenerator) : Module → List WrapperRequest → List Token → Module → Prop where
  | nil (module : Module) : Generates generator module [] [] module
  | cons {before middle after : Module} {request : WrapperRequest} {requests : List WrapperRequest}
    {wrapper : Token} {wrappers : List Token} (first : generator request before = (.ok wrapper, middle))
    (rest : Generates generator middle requests wrappers after) :
    Generates generator before (request :: requests) (wrapper :: wrappers) after

/-- The requests for the instantiations of one record, from a position on. -/
def instantiationRequests (request : WrapperRequest) : Nat → List Instantiation → List WrapperRequest
  | _, [] => []
  | position, inst :: rest =>
    { request with position, typeArgs := inst.typeArgs, methodArgs := inst.methodArgs } ::
      instantiationRequests request (position + 1) rest

/-- The requests for records that are numbered from an ordinal on. -/
def recordRequests (container : Token) : Nat → List GenericRecord → List WrapperRequest
  | _, [] => []
  | ordinal, record :: rest =>
    if record.instantiations.isEmpty then recordRequests container ordinal rest
    else
      instantiationRequests { container, method := record.method, ordinal, position := 0 } 0
          record.instantiations ++ recordRequests container (ordinal + 1) rest

/-- The wrappers of records, in their order. -/
def wrappersOf (records : List GenericRecord) : List Token :=
  records.flatMap fun record => record.instantiations.filterMap (·.wrapper)

/-- Instantiations got their wrappers. -/
inductive Equipped : List Instantiation → List Token → List Instantiation → Prop where
  | nil : Equipped [] [] []
  | cons {inst : Instantiation} {insts insts' : List Instantiation} {wrappers : List Token} (wrapper : Token)
    (rest : Equipped insts wrappers insts') :
    Equipped (inst :: insts) (wrapper :: wrappers) ({ inst with wrapper := some wrapper } :: insts')

/-- Records with instantiations got numbers, from an ordinal on, and wrappers. -/
inductive Numbered : Nat → List GenericRecord → List GenericRecord → Prop where
  | nil (ordinal : Nat) : Numbered ordinal [] []
  | skip {ordinal : Nat} {record : GenericRecord} {records records' : List GenericRecord}
    (empty : record.instantiations = []) (rest : Numbered ordinal records records') :
    Numbered ordinal (record :: records) (record :: records')
  | number {ordinal : Nat} {record : GenericRecord} {records records' : List GenericRecord}
    {wrappers : List Token} {insts : List Instantiation} (filled : record.instantiations ≠ [])
    (equipped : Equipped record.instantiations wrappers insts)
    (rest : Numbered (ordinal + 1) records records') :
    Numbered ordinal (record :: records)
      ({ record with ordinal := some ordinal, instantiations := insts } :: records')

namespace Generates

variable {generator : WrapperGenerator} {before middle after : Module}
  {requests more : List WrapperRequest} {wrappers others : List Token}

theorem append (h : Generates generator before requests wrappers middle)
    (h' : Generates generator middle more others after) :
    Generates generator before (requests ++ more) (wrappers ++ others) after := by
  induction h with
  | nil => exact h'
  | cons first _ ih => exact .cons first (ih h')

end Generates

section Records

variable {generator : WrapperGenerator} {module module' : Module}

theorem Equipped.filterMap_wrapper {insts insts' : List Instantiation} {wrappers : List Token}
    (h : Equipped insts wrappers insts') : insts'.filterMap (·.wrapper) = wrappers := by
  induction h with
  | nil => rfl
  | cons wrapper _ ih => simp [ih]

theorem Equipped.length_wrappers {insts insts' : List Instantiation} {wrappers : List Token}
    (h : Equipped insts wrappers insts') : wrappers.length = insts.length := by
  induction h with
  | nil => rfl
  | cons wrapper _ ih => simp [ih]

/-- There is one wrapper for each instantiation. -/
theorem Numbered.length_wrappers {ordinal : Nat} {records records' : List GenericRecord}
    (h : Numbered ordinal records records') :
    (wrappersOf records').length = (records.map (·.instantiations.length)).sum := by
  induction h with
  | nil => rfl
  | skip hempty _ ih =>
    rw [wrappersOf, List.flatMap_cons, hempty, List.filterMap_nil, List.nil_append, ← wrappersOf, ih]
    simp [hempty]
  | number _ hequipped _ ih =>
    rw [wrappersOf, List.flatMap_cons, hequipped.filterMap_wrapper, List.length_append, ← wrappersOf, ih,
      hequipped.length_wrappers, List.map_cons, List.sum_cons]

theorem wrapInstantiations_ok {request : WrapperRequest} {position : Nat} {insts insts' : List Instantiation}
    (h : wrapInstantiations generator request position insts module = (.ok (), insts', module')) :
    ∃ wrappers, Equipped insts wrappers insts' ∧
      Generates generator module (instantiationRequests request position insts) wrappers module' := by
  induction insts generalizing position module insts' with
  | nil =>
    cases h
    exact ⟨[], .nil, .nil _⟩
  | cons inst rest ih =>
    rw [wrapInstantiations] at h
    split at h
    · rename_i wrapper next hg
      rcases hr : wrapInstantiations generator request (position + 1) rest next with ⟨result, insts, last⟩
      rw [hr] at h
      cases h
      obtain ⟨wrappers, he, hrun⟩ := ih hr
      exact ⟨wrapper :: wrappers, .cons wrapper he, .cons hg hrun⟩
    · cases h

/-- The successful generation of wrappers is a run over the requests of the records. -/
theorem wrapRecords_ok {container : Token} {records : List GenericRecord} {ordinals : OrdinalAllocator}
    {state : WrapperState} (h : wrapRecords generator container records ordinals module = (.ok (), state)) :
    Numbered ordinals.next records state.records ∧
      Generates generator module (recordRequests container ordinals.next records) (wrappersOf state.records)
        state.module := by
  induction records generalizing ordinals module state with
  | nil =>
    cases h
    exact ⟨.nil _, .nil _⟩
  | cons record rest ih =>
    rw [wrapRecords] at h
    rw [recordRequests]
    split_ifs at h ⊢ with he
    · rcases hr : wrapRecords generator container rest ordinals module with ⟨result, next⟩
      rw [hr] at h
      cases h
      obtain ⟨hn, hrun⟩ := ih hr
      rw [List.isEmpty_iff] at he
      refine ⟨.skip he hn, ?_⟩
      simpa [wrappersOf, he] using hrun
    · dsimp only [OrdinalAllocator.allocate] at h
      split at h
      · rename_i insts next hi
        rcases hr : wrapRecords generator container rest ⟨ordinals.next + 1⟩ next with ⟨result, last⟩
        rw [hr] at h
        cases h
        obtain ⟨wrappers, hequipped, hrun⟩ := wrapInstantiations_ok hi
        obtain ⟨hn, hrest⟩ := ih hr
        rw [List.isEmpty_iff] at he
        refine ⟨.number he hequipped hn, ?_⟩
        rw [wrappersOf, List.flatMap_cons, hequipped.filterMap_wrapper]
        exact hrun.append hrest
      · cases h

end Records

namespace Wrapper

variable {request : WrapperRequest} {module module' : Module} {wrapper : Token}

/-- The method that is added for a request. -/
def row (request : WrapperRequest) (target : Target) (sig : MethodSig) (body : Body) : MethodDef where
  owner := request.container
  name := wrapperName target.method.name request.ordinal request.position
  flags := .wrapper
  sig
  body := some body

/-- What a request is checked for. -/
structure Checked (module : Module) (request : WrapperRequest) (target : Target) : Prop where
  method : module.method? request.method = some target.method
  owner : module.typeDef? target.method.owner = some target.owner
  typeArgs : target.owner.generics.length = request.typeArgs.length
  methodArgs : target.method.generics.length = request.methodArgs.length
  concrete : ∀ arg ∈ request.typeArgs ++ request.methodArgs, arg.isConcrete

/-- A request passes the checks if its method can be named as well. -/
theorem target_eq_ok {target : Target} : Wrapper.target module request = .ok target ↔
    Checked module request target ∧ ∃ name, module.fullName target.method.owner = .ok name := by
  constructor
  · intro h
    obtain ⟨method, hm, h⟩ := bind_eq_ok.mp h
    obtain ⟨owner, ho, h⟩ := bind_eq_ok.mp h
    obtain ⟨name, hn, h⟩ := bind_eq_ok.mp h
    rw [require_eq_ok] at hm ho
    split_ifs at h with hcounts
    push Not at hcounts
    split at h
    · cases h
    · rename_i hnone
      cases h
      obtain ⟨method', hm', hn⟩ := bind_eq_ok.mp hn
      obtain ⟨ownerName, hname, -⟩ := bind_eq_ok.mp hn
      rw [require_eq_ok, hm, Option.some.injEq] at hm'
      subst hm'
      refine ⟨⟨hm, ho, hcounts.1, hcounts.2, fun arg ha => ?_⟩, ownerName, hname⟩
      simpa using List.find?_eq_none.mp hnone arg ha
  · rintro ⟨hc, ownerName, hname⟩
    have hfull : module.methodFullName request.method = .ok (ownerName ++ "::" ++ target.method.name) :=
      bind_eq_ok.mpr ⟨target.method, require_eq_ok.mpr hc.method, bind_eq_ok.mpr ⟨ownerName, hname, rfl⟩⟩
    have hnone : (request.typeArgs ++ request.methodArgs).find? (!·.isConcrete) = none :=
      List.find?_eq_none.mpr fun arg ha => by simp [hc.concrete arg ha]
    refine bind_eq_ok.mpr ⟨_, require_eq_ok.mpr hc.method, bind_eq_ok.mpr ⟨_, require_eq_ok.mpr hc.owner,
      bind_eq_ok.mpr ⟨_, hfull, ?_⟩⟩⟩
    rw [if_neg (by simp [hc.typeArgs, hc.methodArgs]), hnone]
    rfl

theorem target_ok {target : Target} (h : Wrapper.target module request = .ok target) :
    Checked module request target := (target_eq_ok.mp h).1

theorem callee_adds {target : Target} {token : Token}
    (h : callee request target module = (.ok token, module')) : module.AddsReferences module' := by
  unfold callee at h
  rw [Edit.get_bind] at h
  have hlast : ∀ {member : Token} {middle : Module},
      (if target.method.isGeneric then Edit.always (·.addMethodSpec ⟨member, request.methodArgs⟩)
        else pure member : Edit Token) middle = (.ok token, module') → middle.AddsReferences module' := by
    intro member middle h
    split_ifs at h
    · exact (Edit.Settles.addMethodSpec _ _ _ _ h).1
    · exact (Edit.Settles.pure _ _ _ _ h).1
  by_cases hg : target.owner.isGeneric
  · rw [if_pos hg] at h
    obtain ⟨ownerSpec, first, hs, h⟩ := run_bind_eq_ok.mp h
    obtain ⟨member, second, hm, h⟩ := run_bind_eq_ok.mp h
    exact ((Edit.Settles.addTypeSpec _ _ _ _ hs).1.trans (Edit.Settles.addMemberRef _ _ _ _ hm).1).trans
      (hlast h)
  · rw [if_neg hg] at h
    obtain ⟨member, first, hm, h⟩ := run_bind_eq_ok.mp h
    exact (Edit.Settles.pure _ _ _ _ hm).1.trans (hlast h)

/-- A token by which the method can be called on an owner: its own, or that of a member of the owner's
instantiation if the owner is generic. -/
inductive MemberOf (module : Module) (owner : TypeSig) (request : WrapperRequest) (target : Target) : Token → Prop where
  | definition (plain : target.owner.isGeneric = false) : MemberOf module owner request target request.method
  | reference {parent member : Token} (generic : target.owner.isGeneric = true)
    (found : module.memberRef? member = some ⟨parent, target.method.name, target.method.sig⟩)
    (instantiated : module.typeSpec? parent = some ⟨.generic owner request.typeArgs⟩) :
    MemberOf module owner request target member

/-- Following the rows of a callee leads to the method, through an instantiation of the method if it is
generic. -/
inductive Reaches (module : Module) (owner : TypeSig) (request : WrapperRequest) (target : Target) : Token → Prop where
  | plain {member : Token} (plain : target.method.isGeneric = false)
    (reached : MemberOf module owner request target member) : Reaches module owner request target member
  | instantiation {member callee : Token} (generic : target.method.isGeneric = true)
    (found : module.methodSpec? callee = some ⟨member, request.methodArgs⟩)
    (reached : MemberOf module owner request target member) : Reaches module owner request target callee

section Callees

variable {owner : TypeSig} {target : Target} {token : Token}

theorem MemberOf.mono (h : MemberOf module owner request target token) (hk : module.KeepsReferences module') :
    MemberOf module' owner request target token := by
  cases h with
  | definition plain => exact .definition plain
  | reference generic found instantiated =>
    exact .reference generic (hk.memberRef? found) (hk.typeSpec? instantiated)

theorem Reaches.mono (h : Reaches module owner request target token) (hk : module.KeepsReferences module') :
    Reaches module' owner request target token := by
  cases h with
  | plain plain reached => exact .plain plain (reached.mono hk)
  | instantiation generic found reached =>
    exact .instantiation generic (hk.methodSpec? found) (reached.mono hk)

/-- The callee that is added leads to the method. -/
theorem callee_reaches (h : callee request target module = (.ok token, module')) (hfit : module'.RowsFit) :
    Reaches module' (module.typeSignature target.method.owner) request target token := by
  unfold callee at h
  rw [Edit.get_bind] at h
  have hlast : ∀ {member : Token} {middle : Module}, (middle.RowsFit →
      MemberOf middle (module.typeSignature target.method.owner) request target member) →
      (if target.method.isGeneric then Edit.always (·.addMethodSpec ⟨member, request.methodArgs⟩)
        else pure member : Edit Token) middle = (.ok token, module') →
      Reaches module' (module.typeSignature target.method.owner) request target token := by
    intro member middle hmember h
    split_ifs at h with hg
    · have hadds := (Edit.Settles.addMethodSpec _ _ _ _ h).1
      have hreached := (hmember ((hadds.extension none).grows.rowsFit hfit)).mono hadds.toKeepsReferences
      exact .instantiation hg (Module.methodSpec?_addMethodSpec (Edit.always_eq_ok.mp h) hfit) hreached
    · obtain ⟨rfl, rfl⟩ := run_pure_eq_ok.mp h
      exact .plain (by simpa using hg) (hmember hfit)
  by_cases hg : target.owner.isGeneric
  · rw [if_pos hg] at h
    obtain ⟨ownerSpec, first, hs, h⟩ := run_bind_eq_ok.mp h
    obtain ⟨member, second, hm, h⟩ := run_bind_eq_ok.mp h
    refine hlast (fun hsecond => ?_) h
    have hadds := (Edit.Settles.addMemberRef _ _ _ _ hm).1
    have hspec := Module.typeSpec?_addTypeSpec (Edit.always_eq_ok.mp hs) ((hadds.extension none).grows.rowsFit hsecond)
    rw [ownerSig, if_pos hg] at hspec
    exact .reference hg (Module.memberRef?_addMemberRef (Edit.always_eq_ok.mp hm) hsecond) (hadds.typeSpec? hspec)
  · rw [if_neg hg] at h
    obtain ⟨member, first, hm, h⟩ := run_bind_eq_ok.mp h
    obtain ⟨rfl, rfl⟩ := run_pure_eq_ok.mp hm
    exact hlast (fun _ => .definition (by simpa using hg)) h

/-- Adding references does not fail. -/
theorem exists_callee (request : WrapperRequest) (target : Target) (module : Module) :
    ∃ token module', callee request target module = (.ok token, module') := by
  unfold callee
  cases target.owner.isGeneric <;> cases target.method.isGeneric <;> exact ⟨_, _, rfl⟩

end Callees

/-- The steps of a successful request. -/
theorem forward_eq_ok : forward request module = (.ok wrapper, module') ↔
    ∃ target sig callee body middle, Wrapper.target module request = .ok target ∧
      signature module request = .ok sig ∧ Wrapper.callee request target module = (.ok callee, middle) ∧
      Wrapper.body callee target.method.sig = .ok body ∧
      middle.addMethod (row request target sig body) = .ok (wrapper, module') := by
  unfold forward
  constructor
  · intro h
    obtain ⟨target, ht, h⟩ := Edit.inspect_bind_eq_ok.mp h
    obtain ⟨sig, hs, h⟩ := Edit.inspect_bind_eq_ok.mp h
    obtain ⟨callee, middle, hc, h⟩ := run_bind_eq_ok.mp h
    obtain ⟨body, hb, h⟩ := Edit.inspect_bind_eq_ok.mp h
    exact ⟨target, sig, callee, body, middle, ht, hs, hc, hb, Edit.attempt_eq_ok.mp h⟩
  · rintro ⟨target, sig, callee, body, middle, ht, hs, hc, hb, ha⟩
    refine Edit.inspect_bind_eq_ok.mpr ⟨target, ht, Edit.inspect_bind_eq_ok.mpr ⟨sig, hs, ?_⟩⟩
    refine run_bind_eq_ok.mpr ⟨callee, middle, hc, Edit.inspect_bind_eq_ok.mpr ⟨body, hb, ?_⟩⟩
    exact Edit.attempt_eq_ok.mpr ha

/-- A wrapper comes behind the methods of the container, and nothing else but references is added. -/
theorem forward_extension (h : forward request module = (.ok wrapper, module')) :
    Module.Extension (some request.container) [wrapper] (fun _ => False) module module' := by
  obtain ⟨target, sig, callee, body, middle, -, -, hc, -, ha⟩ := forward_eq_ok.mp h
  have hadds := (callee_adds hc).extension (some request.container)
  exact (hadds.trans (Module.addMethod_extension ha)).mono fun _ hp => hp.elim id id

theorem forward_attributes (h : forward request module = (.ok wrapper, module')) :
    module'.attributes = module.attributes := by
  obtain ⟨target, sig, callee, body, middle, -, -, hc, -, ha⟩ := forward_eq_ok.mp h
  rw [(Module.addMethod_spec ha).2.2.1, ← (callee_adds hc).attributes_eq]

end Wrapper

theorem container_of_mem_instantiationRequests {request other : WrapperRequest} {position : Nat}
    {insts : List Instantiation} (h : other ∈ instantiationRequests request position insts) :
    other.container = request.container := by
  induction insts generalizing position with
  | nil => cases h
  | cons inst insts ih =>
    rcases List.mem_cons.mp h with rfl | h
    · rfl
    · exact ih h

theorem container_of_mem_recordRequests {container : Token} {ordinal : Nat} {records : List GenericRecord}
    {request : WrapperRequest} (h : request ∈ recordRequests container ordinal records) :
    request.container = container := by
  induction records generalizing ordinal with
  | nil => cases h
  | cons record records ih =>
    rw [recordRequests] at h
    split_ifs at h
    · exact ih h
    · rcases List.mem_append.mp h with h | h
      · exact container_of_mem_instantiationRequests h
      · exact ih h

/-- A run extends the module by its wrappers. -/
theorem Generates.extension {container : Token} {requests : List WrapperRequest} {wrappers : List Token}
    {before after : Module} (h : Generates Wrapper.forward before requests wrappers after)
    (hc : ∀ request ∈ requests, request.container = container) :
    Module.Extension (some container) wrappers (fun _ => False) before after := by
  induction h with
  | nil module => exact .refl _ module
  | @cons before middle after request requests wrapper wrappers first rest ih =>
    have hstep := Wrapper.forward_extension first
    rw [hc request (by simp)] at hstep
    have hrest := ih fun other ho => hc other (by simp [ho])
    exact (hstep.trans hrest).mono fun _ hp => hp.elim id id

theorem Generates.attributes_eq {requests : List WrapperRequest} {wrappers : List Token}
    {before after : Module} (h : Generates Wrapper.forward before requests wrappers after) :
    after.attributes = before.attributes := by
  induction h with
  | nil module => rfl
  | cons first _ ih => rw [ih, Wrapper.forward_attributes first]

/-- A wrapper as it was requested: a static method of the container without generic parameters. -/
def Forwarded (module : Module) (request : WrapperRequest) (wrapper : Token) : Prop :=
  ∃ row method, module.method? wrapper = some row ∧ module.method? request.method = some method ∧
    row.owner = request.container ∧
    row.name = wrapperName method.name request.ordinal request.position ∧
    row.flags = .wrapper ∧ row.generics = []

theorem Forwarded.mono {before after : Module} {container : Option Token} {wrappers : List Token}
    {p : Token → Prop} {request : WrapperRequest} {wrapper : Token} (h : Forwarded before request wrapper)
    (he : Module.Extension container wrappers p before after) : Forwarded after request wrapper := by
  obtain ⟨row, method, hr, hm, howner, hname, hflags, hgenerics⟩ := h
  obtain ⟨body, hr', -⟩ := he.method wrapper row hr
  obtain ⟨code, hm', -⟩ := he.method request.method method hm
  exact ⟨_, _, hr', hm', howner, hname, hflags, hgenerics⟩

theorem Wrapper.forward_forwarded {request : WrapperRequest} {before after : Module} {wrapper : Token}
    (h : forward request before = (.ok wrapper, after)) (hfit : after.RowsFit) :
    Forwarded after request wrapper := by
  have hextension := forward_extension h
  obtain ⟨target, sig, callee, body, middle, ht, -, -, -, ha⟩ := forward_eq_ok.mp h
  obtain ⟨code, hm, -⟩ := hextension.method _ _ (target_ok ht).method
  exact ⟨_, _, Module.method?_addMethod ha hfit, hm, rfl, rfl, rfl, rfl⟩

/-- Each request of a run led to its wrapper. -/
theorem Generates.forwarded {container : Token} {requests : List WrapperRequest} {wrappers : List Token}
    {before after : Module} (h : Generates Wrapper.forward before requests wrappers after)
    (hc : ∀ request ∈ requests, request.container = container) (hfit : after.RowsFit) :
    List.Forall₂ (Forwarded after) requests wrappers := by
  induction h with
  | nil module => exact .nil
  | cons first rest ih =>
    have hrest := rest.extension fun other ho => hc other (by simp [ho])
    refine .cons ?_ (ih (fun other ho => hc other (by simp [ho])) hfit)
    exact (Wrapper.forward_forwarded first (hrest.grows.rowsFit hfit)).mono hrest

end HotPatch
