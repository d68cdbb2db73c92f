import HotPatch.Proofs.Module.ImportedRows

/-!
# References without tokens

What a token stands for can be unfolded into a tree without tokens, as long as
every row behind it is there. An import unfolds in the source and stores the tree
in the target, where equal rows are shared. So whether it succeeds does not
depend on the target, and two references become the same exactly if they unfold
into the same tree.
-/

namespace HotPatch

mutual

/-- A type apart from the module that mentions it. -/
inductive PortableType where
  | topLevel (assembly : String) (name : TypeName)
  | nested (enclosing : PortableType) (name : TypeName)
  | specification (sig : PortableSig)

/-- A signature of such types. -/
inductive PortableSig where
  | primitive (type : Primitive)
  | class (type : PortableType)
  | valueType (type : PortableType)
  | typeParam (index : Nat)
  | methodParam (index : Nat)
  | generic (base : PortableSig) (args : List PortableSig)
  | vector (element : PortableSig)
  | byRef (target : PortableSig)

end

structure PortableMethodSig where
  hasThis : Bool
  genericCount : Nat
  returnType : PortableSig
  params : List PortableSig

/-- A method apart from the module that mentions it. -/
inductive PortableMethod where
  | member (parent : PortableType) (name : String) (sig : PortableMethodSig)
  | instantiation (method : PortableMethod) (args : List PortableSig)

section Storing

mutual

/-- Adds the references that the type needs. -/
def PortableType.store : PortableType → Edit Token
  | .topLevel assembly name => Edit.always (·.addTypeRef ⟨.assembly assembly, name⟩)
  | .nested enclosing name => do
    let outer ← enclosing.store
    Edit.always (·.addTypeRef ⟨.nested outer, name⟩)
  | .specification sig => do
    let sig ← sig.store
    Edit.always (·.addTypeSpec sig)

def PortableSig.store : PortableSig → Edit TypeSig
  | .primitive type => pure (.primitive type)
  | .class type => do return .class (← type.store)
  | .valueType type => do return .valueType (← type.store)
  | .typeParam index => pure (.typeParam index)
  | .methodParam index => pure (.methodParam index)
  | .generic base args => do
    let base ← base.store
    return .generic base (← PortableSig.storeAll args)
  | .vector element => do return .vector (← element.store)
  | .byRef target => do return .byRef (← target.store)

def PortableSig.storeAll : List PortableSig → Edit (List TypeSig)
  | [] => pure []
  | sig :: sigs => do
    let first ← sig.store
    let rest ← PortableSig.storeAll sigs
    return first :: rest

end

def PortableMethodSig.store (sig : PortableMethodSig) : Edit MethodSig := do
  let returnType ← sig.returnType.store
  let params ← PortableSig.storeAll sig.params
  return { hasThis := sig.hasThis, genericCount := sig.genericCount, returnType, params }

def PortableMethod.store : PortableMethod → Edit Token
  | .member parent name sig => do
    let parent ← parent.store
    let sig ← sig.store
    Edit.always (·.addMemberRef ⟨parent, name, sig⟩)
  | .instantiation method args => do
    let method ← method.store
    let args ← PortableSig.storeAll args
    Edit.always (·.addMethodSpec ⟨method, args⟩)

end Storing

namespace Module

variable (source : Module)

mutual

/-- What a type stands for, with at most the given number of levels. -/
def unfoldType? : Nat → Token → Option PortableType
  | 0, _ => none
  | levels + 1, token =>
    match token.table? with
    | some .typeDef => do
      let row ← source.typeDef? token
      match row.enclosing with
      | some enclosing => (unfoldType? levels enclosing).map (.nested · row.name)
      | none => some (.topLevel source.name row.name)
    | some .typeRef => do
      let row ← source.typeRef? token
      match row.scope with
      | .nested enclosing => (unfoldType? levels enclosing).map (.nested · row.name)
      | .assembly assembly => some (.topLevel assembly row.name)
    | some .typeSpec => do
      let row ← source.typeSpec? token
      (unfoldSig? levels row.sig).map .specification
    | _ => none

def unfoldSig? : Nat → TypeSig → Option PortableSig
  | 0, _ => none
  | levels + 1, sig =>
    match sig with
    | .primitive type => some (.primitive type)
    | .class token => (unfoldType? levels token).map .class
    | .valueType token => (unfoldType? levels token).map .valueType
    | .typeParam index => some (.typeParam index)
    | .methodParam index => some (.methodParam index)
    | .generic base args => (unfoldSig? levels base).bind fun base => (args.mapM (unfoldSig? levels)).map (.generic base)
    | .vector element => (unfoldSig? levels element).map .vector
    | .byRef target => (unfoldSig? levels target).map .byRef

end

def unfoldMethodSig? (levels : Nat) (sig : MethodSig) : Option PortableMethodSig :=
  (source.unfoldSig? levels sig.returnType).bind fun returnType =>
    (sig.params.mapM (source.unfoldSig? levels)).map (⟨sig.hasThis, sig.genericCount, returnType, ·⟩)

def unfoldMember? (levels : Nat) (parent : Token) (name : String) (sig : MethodSig) : Option PortableMethod :=
  (source.unfoldType? levels parent).bind fun parent => (source.unfoldMethodSig? levels sig).map (.member parent name)

/-- What a method stands for, with at most the given number of levels. -/
def unfoldMethod? : Nat → Token → Option PortableMethod
  | 0, _ => none
  | levels + 1, token =>
    match token.table? with
    | some .methodDef => do
      let method ← (source.importableMethod token).toOption
      source.unfoldMember? levels method.owner method.name method.sig
    | some .memberRef => do
      let row ← source.memberRef? token
      source.unfoldMember? levels row.parent row.name row.sig
    | some .methodSpec => do
      let row ← source.methodSpec? token
      (unfoldMethod? levels row.method).bind fun method =>
        (row.args.mapM (source.unfoldSig? levels)).map (.instantiation method)
    | _ => none

end Module

section Realizing

variable {α β γ φ ψ χ ρ : Type}

/-- The edit succeeds exactly if there is a form, and then does what storing the form does. -/
def Realizes (edit : Edit α) (form? : Option φ) (store : φ → Edit α) : Prop :=
  ∀ module value last, edit module = (.ok value, last) ↔
    ∃ form, form? = some form ∧ store form module = (.ok value, last)

namespace Realizes

variable {edit : Edit α} {edit' : Edit β} {store : φ → Edit α} {store' : ψ → Edit β} {form? : Option φ}
  {form'? : Option ψ}

theorem fail (error : Error) : Realizes (throw error) none store := by
  intro module value last
  simp [Edit.throw_ne_ok]

theorem same {form : φ} (h : store form = edit) : Realizes edit (some form) store := by
  intro module value last
  simp [h]

theorem inspect {result : Result ρ} {next : ρ → Edit α} {form? : ρ → Option φ}
    (hn : ∀ row, Realizes (next row) (form? row) store) :
    Realizes (Edit.inspect (fun _ => result) >>= next) (result.toOption.bind form?) store := by
  intro module value last
  rw [Edit.inspect_bind_eq_ok]
  rcases result with error | row
  · simp [Except.toOption]
  · simp [Except.toOption, hn row module value last]

theorem lookup {row? : Option ρ} {token : Token} {next : ρ → Edit α} {form? : ρ → Option φ}
    (hn : ∀ row, Realizes (next row) (form? row) store) :
    Realizes (Edit.inspect (fun _ => Module.require row? token) >>= next) (row?.bind form?) store := by
  rcases row? with - | row
  · exact inspect hn
  · exact inspect hn

/-- The form of a step becomes part of a larger form. -/
theorem bind {next : α → Edit γ} {make : φ → χ} {whole : χ → Edit γ} (h : Realizes edit form? store)
    (hs : ∀ form, whole (make form) = store form >>= next) :
    Realizes (edit >>= next) (form?.map make) whole := by
  intro module value last
  rw [run_bind_eq_ok]
  constructor
  · rintro ⟨first, middle, he, hn⟩
    obtain ⟨form, hf, hstore⟩ := (h _ _ _).mp he
    refine ⟨make form, by rw [hf, Option.map_some], ?_⟩
    rw [hs]
    exact run_bind_eq_ok.mpr ⟨first, middle, hstore, hn⟩
  · rintro ⟨_, hf, hstore⟩
    obtain ⟨form, hform, rfl⟩ := Option.map_eq_some_iff.mp hf
    rw [hs] at hstore
    obtain ⟨first, middle, hfirst, hn⟩ := run_bind_eq_ok.mp hstore
    exact ⟨first, middle, (h _ _ _).mpr ⟨form, hform, hfirst⟩, hn⟩

/-- The forms of two steps, one after the other, become parts of a larger form. -/
theorem bind₂ {next : α → β → Edit γ} {make : φ → ψ → χ} {whole : χ → Edit γ} (h : Realizes edit form? store)
    (h' : Realizes edit' form'? store')
    (hs : ∀ form form', whole (make form form') =
      store form >>= fun first => store' form' >>= fun second => next first second) :
    Realizes (edit >>= fun first => edit' >>= fun second => next first second)
      (form?.bind fun form => form'?.map (make form)) whole := by
  intro module value last
  rw [run_bind_eq_ok]
  constructor
  · rintro ⟨first, middle, he, hn⟩
    obtain ⟨second, later, he', hn⟩ := run_bind_eq_ok.mp hn
    obtain ⟨form, hf, hstore⟩ := (h _ _ _).mp he
    obtain ⟨form', hf', hstore'⟩ := (h' _ _ _).mp he'
    refine ⟨make form form', by rw [hf, hf']; rfl, ?_⟩
    rw [hs]
    exact run_bind_eq_ok.mpr ⟨first, middle, hstore, run_bind_eq_ok.mpr ⟨second, later, hstore', hn⟩⟩
  · rintro ⟨_, hf, hstore⟩
    obtain ⟨form, hform, hf⟩ := Option.bind_eq_some_iff.mp hf
    obtain ⟨form', hform', rfl⟩ := Option.map_eq_some_iff.mp hf
    rw [hs] at hstore
    obtain ⟨first, middle, hfirst, hn⟩ := run_bind_eq_ok.mp hstore
    obtain ⟨second, later, hsecond, hn⟩ := run_bind_eq_ok.mp hn
    exact ⟨first, middle, (h _ _ _).mpr ⟨form, hform, hfirst⟩,
      run_bind_eq_ok.mpr ⟨second, later, (h' _ _ _).mpr ⟨form', hform', hsecond⟩, hn⟩⟩

theorem storeAll {step : TypeSig → Edit TypeSig} {form? : TypeSig → Option PortableSig}
    (hs : ∀ sig, Realizes (step sig) (form? sig) PortableSig.store) (sigs : List TypeSig) :
    Realizes (sigs.mapM step) (sigs.mapM form?) PortableSig.storeAll := by
  induction sigs with
  | nil =>
    rw [List.mapM_nil, List.mapM_nil]
    exact same rfl
  | cons sig sigs ih =>
    have hforms : (sig :: sigs).mapM form? = (form? sig).bind fun form => (sigs.mapM form?).map (form :: ·) := by
      simp [List.mapM_cons, Option.map_eq_bind]
    have hwhole : ∀ form forms, PortableSig.storeAll (form :: forms) = form.store >>= fun first =>
        PortableSig.storeAll forms >>= fun rest => pure (first :: rest) := fun form forms => rfl
    rw [List.mapM_cons, hforms]
    exact bind₂ (hs sig) ih hwhole

end Realizes
end Realizing

namespace Module

variable (source : Module)

/-- Importing a type is storing what it stands for. -/
theorem importWithin_realizes (levels : Nat) :
    (∀ token, Realizes (source.importTypeWithin levels token) (source.unfoldType? levels token)
        PortableType.store) ∧
      ∀ sig, Realizes (source.importSigWithin levels sig) (source.unfoldSig? levels sig) PortableSig.store := by
  induction levels with
  | zero =>
    constructor
    · intro token
      rw [importTypeWithin, unfoldType?]
      exact .fail _
    · intro sig
      rw [importSigWithin, unfoldSig?]
      exact .fail _
  | succ levels ih =>
    obtain ⟨iht, ihs⟩ := ih
    have hnested : ∀ (enclosing : Token) (name : TypeName),
        Realizes (Scope.nested <$> source.importTypeWithin levels enclosing >>= fun scope =>
          Edit.always (·.addTypeRef ⟨scope, name⟩))
          ((source.unfoldType? levels enclosing).map (.nested · name)) PortableType.store := by
      intro enclosing name
      rw [bind_map_left]
      exact (iht enclosing).bind fun form => rfl
    have htop : ∀ (assembly : String) (name : TypeName),
        Realizes ((pure (.assembly assembly) : Edit Scope) >>= fun scope =>
          Edit.always (·.addTypeRef ⟨scope, name⟩)) (some (.topLevel assembly name)) PortableType.store := by
      intro assembly name
      rw [pure_bind]
      exact .same rfl
    constructor
    · intro token
      rw [importTypeWithin, unfoldType?]
      rcases token.table? with - | table
      · exact .fail _
      · cases table with
        | typeDef =>
          refine .lookup fun row => ?_
          cases row.enclosing with
          | some enclosing => exact hnested enclosing row.name
          | none => exact htop source.name row.name
        | typeRef =>
          refine .lookup fun row => ?_
          cases row.scope with
          | nested enclosing => exact hnested enclosing row.name
          | assembly assembly => exact htop assembly row.name
        | typeSpec => exact .lookup fun row => (ihs row.sig).bind fun form => rfl
        | _ => exact .fail _
    · intro sig
      unfold importSigWithin unfoldSig?
      cases sig with
      | primitive | typeParam | methodParam => exact .same rfl
      | «class» token => exact (iht token).bind fun form => rfl
      | valueType token => exact (iht token).bind fun form => rfl
      | generic base args => exact (ihs base).bind₂ (.storeAll ihs args) fun form forms => rfl
      | vector element => exact (ihs element).bind fun form => rfl
      | byRef target => exact (ihs target).bind fun form => rfl

theorem importMethodSigWithin_realizes (levels : Nat) (sig : MethodSig) :
    Realizes (source.importMethodSigWithin levels sig) (source.unfoldMethodSig? levels sig)
      PortableMethodSig.store := by
  have hs := (source.importWithin_realizes levels).2
  exact (hs sig.returnType).bind₂ (.storeAll hs sig.params) fun returnType params => rfl

theorem importMemberWithin_realizes (levels : Nat) (parent : Token) (name : String) (sig : MethodSig) :
    Realizes (source.importMemberWithin levels parent name sig) (source.unfoldMember? levels parent name sig)
      PortableMethod.store :=
  ((source.importWithin_realizes levels).1 parent).bind₂ (source.importMethodSigWithin_realizes levels sig)
    fun _ _ => rfl

/-- Importing a method is storing what it stands for. -/
theorem importMethodWithin_realizes (levels : Nat) (token : Token) :
    Realizes (source.importMethodWithin levels token) (source.unfoldMethod? levels token)
      PortableMethod.store := by
  induction levels generalizing token with
  | zero => exact .fail _
  | succ levels ih =>
    rw [importMethodWithin, unfoldMethod?]
    rcases token.table? with - | table
    · exact .fail _
    · cases table with
      | methodDef => exact .inspect fun method => source.importMemberWithin_realizes levels _ _ _
      | memberRef => exact .lookup fun row => source.importMemberWithin_realizes levels _ _ _
      | methodSpec =>
        refine .lookup fun row => ?_
        have hargs := Realizes.storeAll (source.importWithin_realizes levels).2 row.args
        exact (ih row.method).bind₂ hargs fun method args => rfl
      | _ => exact .fail _

end Module

section Storage

variable {α β : Type}

/-- An edit that never fails and that settles. -/
structure Edit.Stores (edit : Edit α) : Prop where
  total : ∀ module, ∃ value last, edit module = (.ok value, last)
  settles : edit.Settles

namespace Edit.Stores

theorem pure (value : α) : Stores (Pure.pure value : Edit α) where
  total module := ⟨value, module, rfl⟩
  settles := .pure value

theorem bind {edit : Edit α} {next : α → Edit β} (h : Stores edit) (hn : ∀ value, Stores (next value)) :
    Stores (edit >>= next) where
  total module := by
    obtain ⟨first, middle, hfirst⟩ := h.total module
    obtain ⟨value, last, hlast⟩ := (hn first).total middle
    exact ⟨value, last, run_bind_eq_ok.mpr ⟨first, middle, hfirst, hlast⟩⟩
  settles := h.settles.bind fun value => (hn value).settles

theorem addTypeRef (row : TypeRef) : Stores (Edit.always (·.addTypeRef row)) where
  total _ := ⟨_, _, rfl⟩
  settles := .addTypeRef row

theorem addMemberRef (row : MemberRef) : Stores (Edit.always (·.addMemberRef row)) where
  total _ := ⟨_, _, rfl⟩
  settles := .addMemberRef row

theorem addTypeSpec (sig : TypeSig) : Stores (Edit.always (·.addTypeSpec sig)) where
  total _ := ⟨_, _, rfl⟩
  settles := .addTypeSpec sig

theorem addMethodSpec (row : MethodSpec) : Stores (Edit.always (·.addMethodSpec row)) where
  total _ := ⟨_, _, rfl⟩
  settles := .addMethodSpec row

end Edit.Stores

open Edit (Stores)

mutual

theorem PortableType.stores : ∀ form : PortableType, Stores form.store
  | .topLevel _ _ => .addTypeRef _
  | .nested enclosing _ => enclosing.stores.bind fun _ => .addTypeRef _
  | .specification sig => sig.stores.bind fun _ => .addTypeSpec _

theorem PortableSig.stores : ∀ form : PortableSig, Stores form.store
  | .primitive _ | .typeParam _ | .methodParam _ => .pure _
  | .class type | .valueType type => type.stores.bind fun _ => .pure _
  | .generic base args => base.stores.bind fun _ => (PortableSig.storesAll args).bind fun _ => .pure _
  | .vector element => element.stores.bind fun _ => .pure _
  | .byRef target => target.stores.bind fun _ => .pure _

theorem PortableSig.storesAll : ∀ forms : List PortableSig, Stores (PortableSig.storeAll forms)
  | [] => .pure _
  | form :: forms => form.stores.bind fun _ => (PortableSig.storesAll forms).bind fun _ => .pure _

end

theorem PortableMethodSig.stores (sig : PortableMethodSig) : Stores sig.store :=
  sig.returnType.stores.bind fun _ => (PortableSig.storesAll sig.params).bind fun _ => .pure _

theorem PortableMethod.stores : ∀ form : PortableMethod, Stores form.store
  | .member parent _ sig => parent.stores.bind fun _ => sig.stores.bind fun _ => .addMemberRef _
  | .instantiation method args =>
    method.stores.bind fun _ => (PortableSig.storesAll args).bind fun _ => .addMethodSpec _

end Storage

section Uniqueness

variable {last : Module}

/-- What is stored at the token of a type. -/
inductive PortableType.Placed (last : Module) : PortableType → Token → Prop where
  | topLevel {assembly : String} {name : TypeName} {token : Token}
    (found : last.typeRef? token = some ⟨.assembly assembly, name⟩) : Placed last (.topLevel assembly name) token
  | nested {enclosing : PortableType} {name : TypeName} {outer token : Token}
    (inside : enclosing.store.Stands outer last) (found : last.typeRef? token = some ⟨.nested outer, name⟩) :
    Placed last (.nested enclosing name) token
  | specification {form : PortableSig} {sig : TypeSig} {token : Token} (spelled : form.store.Stands sig last)
    (found : last.typeSpec? token = some ⟨sig⟩) : Placed last (.specification form) token

theorem PortableType.placed (hfit : last.RowsFit) {form : PortableType} {token : Token}
    (h : form.store.Stands token last) : form.Placed last token := by
  cases form with
  | topLevel => exact .topLevel (Module.typeRef?_addTypeRef (Edit.always_eq_ok.mp h) hfit)
  | nested enclosing name =>
    obtain ⟨outer, hinside, hadd⟩ := h.bind enclosing.stores.settles fun _ => .addTypeRef _
    exact .nested hinside (Module.typeRef?_addTypeRef (Edit.always_eq_ok.mp hadd) hfit)
  | specification sig =>
    obtain ⟨stored, hspelled, hadd⟩ := h.bind sig.stores.settles fun _ => .addTypeSpec _
    exact .specification hspelled (Module.typeSpec?_addTypeSpec (Edit.always_eq_ok.mp hadd) hfit)

/-- How a signature is stored. -/
inductive PortableSig.Spelled (last : Module) : PortableSig → TypeSig → Prop where
  | primitive (type : Primitive) : Spelled last (.primitive type) (.primitive type)
  | class {type : PortableType} {token : Token} (h : type.store.Stands token last) :
    Spelled last (.class type) (.class token)
  | valueType {type : PortableType} {token : Token} (h : type.store.Stands token last) :
    Spelled last (.valueType type) (.valueType token)
  | typeParam (index : Nat) : Spelled last (.typeParam index) (.typeParam index)
  | methodParam (index : Nat) : Spelled last (.methodParam index) (.methodParam index)
  | generic {form : PortableSig} {forms : List PortableSig} {base : TypeSig} {args : List TypeSig}
    (hb : form.store.Stands base last) (ha : (PortableSig.storeAll forms).Stands args last) :
    Spelled last (.generic form forms) (.generic base args)
  | vector {form : PortableSig} {element : TypeSig} (h : form.store.Stands element last) :
    Spelled last (.vector form) (.vector element)
  | byRef {form : PortableSig} {target : TypeSig} (h : form.store.Stands target last) :
    Spelled last (.byRef form) (.byRef target)

theorem PortableSig.spelled {form : PortableSig} {sig : TypeSig} (h : form.store.Stands sig last) :
    form.Spelled last sig := by
  cases form with
  | primitive type =>
    obtain ⟨rfl, -⟩ := run_pure_eq_ok.mp h
    exact .primitive type
  | typeParam index =>
    obtain ⟨rfl, -⟩ := run_pure_eq_ok.mp h
    exact .typeParam index
  | methodParam index =>
    obtain ⟨rfl, -⟩ := run_pure_eq_ok.mp h
    exact .methodParam index
  | «class» type =>
    obtain ⟨token, ht, h⟩ := h.bind type.stores.settles fun _ => .pure _
    obtain ⟨rfl, -⟩ := run_pure_eq_ok.mp h
    exact .class ht
  | valueType type =>
    obtain ⟨token, ht, h⟩ := h.bind type.stores.settles fun _ => .pure _
    obtain ⟨rfl, -⟩ := run_pure_eq_ok.mp h
    exact .valueType ht
  | generic base args =>
    have hall := (PortableSig.storesAll args).settles
    obtain ⟨stored, hb, h⟩ := h.bind base.stores.settles fun _ => hall.bind fun _ => .pure _
    obtain ⟨rest, ha, h⟩ := h.bind hall fun _ => .pure _
    obtain ⟨rfl, -⟩ := run_pure_eq_ok.mp h
    exact .generic hb ha
  | vector element =>
    obtain ⟨stored, he, h⟩ := h.bind element.stores.settles fun _ => .pure _
    obtain ⟨rfl, -⟩ := run_pure_eq_ok.mp h
    exact .vector he
  | byRef target =>
    obtain ⟨stored, ht, h⟩ := h.bind target.stores.settles fun _ => .pure _
    obtain ⟨rfl, -⟩ := run_pure_eq_ok.mp h
    exact .byRef ht

theorem PortableSig.spelledAll {form : PortableSig} {forms : List PortableSig} {sigs : List TypeSig}
    (h : (PortableSig.storeAll (form :: forms)).Stands sigs last) :
    ∃ first rest, sigs = first :: rest ∧ form.store.Stands first last ∧
      (PortableSig.storeAll forms).Stands rest last := by
  have hall := (PortableSig.storesAll forms).settles
  obtain ⟨first, hf, h⟩ := h.bind form.stores.settles fun _ => hall.bind fun _ => .pure _
  obtain ⟨rest, hr, h⟩ := h.bind hall fun _ => .pure _
  obtain ⟨rfl, -⟩ := run_pure_eq_ok.mp h
  exact ⟨first, rest, rfl, hf, hr⟩

/-- A token does not name both a reference and a specification. -/
theorem not_typeSpec_of_typeRef {module : Module} {token : Token} {row : TypeRef} {spec : TypeSpec}
    (h : module.typeRef? token = some row) (h' : module.typeSpec? token = some spec) : False := by
  have hnone : module.typeSpec? token = none := rowAt?_of_other h (by decide)
  rw [hnone] at h'
  cases h'

mutual

/-- What stands at one token is one type. -/
theorem PortableType.unique (hfit : last.RowsFit) : ∀ {form form' : PortableType} {token : Token},
    form.store.Stands token last → form'.store.Stands token last → form = form'
  | .topLevel _ _, _, _, h, h' => by
    cases PortableType.placed hfit h with
    | topLevel found =>
      cases PortableType.placed hfit h' with
      | topLevel found' =>
        cases found.symm.trans found'
        rfl
      | nested _ found' => cases found.symm.trans found'
      | specification _ found' => exact (not_typeSpec_of_typeRef found found').elim
  | .nested enclosing _, _, _, h, h' => by
    cases PortableType.placed hfit h with
    | nested inside found =>
      cases PortableType.placed hfit h' with
      | topLevel found' => cases found.symm.trans found'
      | nested inside' found' =>
        cases found.symm.trans found'
        rw [PortableType.unique hfit inside inside']
      | specification _ found' => exact (not_typeSpec_of_typeRef found found').elim
  | .specification sig, _, _, h, h' => by
    cases PortableType.placed hfit h with
    | specification spelled found =>
      cases PortableType.placed hfit h' with
      | topLevel found' => exact (not_typeSpec_of_typeRef found' found).elim
      | nested _ found' => exact (not_typeSpec_of_typeRef found' found).elim
      | specification spelled' found' =>
        cases found.symm.trans found'
        rw [PortableSig.unique hfit spelled spelled']

theorem PortableSig.unique (hfit : last.RowsFit) : ∀ {form form' : PortableSig} {sig : TypeSig},
    form.store.Stands sig last → form'.store.Stands sig last → form = form'
  | .primitive _, _, _, h, h' | .typeParam _, _, _, h, h' | .methodParam _, _, _, h, h' => by
    cases PortableSig.spelled h
    cases PortableSig.spelled h'
    rfl
  | .class type, _, _, h, h' => by
    cases PortableSig.spelled h with
    | «class» ht =>
      cases PortableSig.spelled h' with
      | «class» ht' => rw [PortableType.unique hfit ht ht']
  | .valueType type, _, _, h, h' => by
    cases PortableSig.spelled h with
    | valueType ht =>
      cases PortableSig.spelled h' with
      | valueType ht' => rw [PortableType.unique hfit ht ht']
  | .generic base args, _, _, h, h' => by
    cases PortableSig.spelled h with
    | generic hb ha =>
      cases PortableSig.spelled h' with
      | generic hb' ha' => rw [PortableSig.unique hfit hb hb', PortableSig.uniqueAll hfit ha ha']
  | .vector element, _, _, h, h' => by
    cases PortableSig.spelled h with
    | vector he =>
      cases PortableSig.spelled h' with
      | vector he' => rw [PortableSig.unique hfit he he']
  | .byRef target, _, _, h, h' => by
    cases PortableSig.spelled h with
    | byRef ht =>
      cases PortableSig.spelled h' with
      | byRef ht' => rw [PortableSig.unique hfit ht ht']

theorem PortableSig.uniqueAll (hfit : last.RowsFit) : ∀ {forms forms' : List PortableSig} {sigs : List TypeSig},
    (PortableSig.storeAll forms).Stands sigs last → (PortableSig.storeAll forms').Stands sigs last → forms = forms'
  | [], [], _, _, _ => rfl
  | [], _ :: _, _, h, h' => by
    obtain ⟨first, rest, hsigs, -⟩ := PortableSig.spelledAll h'
    obtain ⟨rfl, -⟩ := run_pure_eq_ok.mp h
    cases hsigs
  | _ :: _, [], _, h, h' => by
    obtain ⟨first, rest, hsigs, -⟩ := PortableSig.spelledAll h
    obtain ⟨rfl, -⟩ := run_pure_eq_ok.mp h'
    cases hsigs
  | form :: forms, _ :: _, _, h, h' => by
    obtain ⟨first, rest, rfl, hf, hr⟩ := PortableSig.spelledAll h
    obtain ⟨first', rest', hsigs, hf', hr'⟩ := PortableSig.spelledAll h'
    cases hsigs
    rw [PortableSig.unique hfit hf hf', PortableSig.uniqueAll hfit hr hr']

end

theorem PortableMethodSig.unique (hfit : last.RowsFit) {form form' : PortableMethodSig} {sig : MethodSig}
    (h : form.store.Stands sig last) (h' : form'.store.Stands sig last) : form = form' := by
  have hall := fun forms => (PortableSig.storesAll forms).settles
  obtain ⟨hasThis, genericCount, returnType, params⟩ := form
  obtain ⟨hasThis', genericCount', returnType', params'⟩ := form'
  obtain ⟨stored, hr, h⟩ := h.bind returnType.stores.settles fun _ => (hall params).bind fun _ => .pure _
  obtain ⟨storedParams, hp, h⟩ := h.bind (hall params) fun _ => .pure _
  obtain ⟨rfl, -⟩ := run_pure_eq_ok.mp h
  obtain ⟨stored', hr', h'⟩ := h'.bind returnType'.stores.settles fun _ => (hall params').bind fun _ => .pure _
  obtain ⟨storedParams', hp', h'⟩ := h'.bind (hall params') fun _ => .pure _
  obtain ⟨hsig, -⟩ := run_pure_eq_ok.mp h'
  cases hsig
  obtain rfl := PortableSig.unique hfit hr hr'
  obtain rfl := PortableSig.uniqueAll hfit hp hp'
  rfl

/-- What is stored at the token of a method. -/
inductive PortableMethod.Placed (last : Module) : PortableMethod → Token → Prop where
  | member {type : PortableType} {name : String} {shape : PortableMethodSig} {parent token : Token}
    {sig : MethodSig} (owned : type.store.Stands parent last) (typed : shape.store.Stands sig last)
    (found : last.memberRef? token = some ⟨parent, name, sig⟩) : Placed last (.member type name shape) token
  | instantiation {generic : PortableMethod} {forms : List PortableSig} {method token : Token}
    {args : List TypeSig} (made : generic.store.Stands method last)
    (applied : (PortableSig.storeAll forms).Stands args last)
    (found : last.methodSpec? token = some ⟨method, args⟩) : Placed last (.instantiation generic forms) token

theorem PortableMethod.placed (hfit : last.RowsFit) {form : PortableMethod} {token : Token}
    (h : form.store.Stands token last) : form.Placed last token := by
  cases form with
  | member type name shape =>
    obtain ⟨parent, howned, h⟩ := h.bind type.stores.settles fun _ =>
      shape.stores.settles.bind fun _ => .addMemberRef _
    obtain ⟨sig, htyped, hadd⟩ := h.bind shape.stores.settles fun _ => .addMemberRef _
    exact .member howned htyped (Module.memberRef?_addMemberRef (Edit.always_eq_ok.mp hadd) hfit)
  | instantiation generic forms =>
    have hall := (PortableSig.storesAll forms).settles
    obtain ⟨method, hmade, h⟩ := h.bind generic.stores.settles fun _ => hall.bind fun _ => .addMethodSpec _
    obtain ⟨args, happlied, hadd⟩ := h.bind hall fun _ => .addMethodSpec _
    exact .instantiation hmade happlied (Module.methodSpec?_addMethodSpec (Edit.always_eq_ok.mp hadd) hfit)

/-- A token does not name both a reference and an instantiation. -/
theorem not_methodSpec_of_memberRef {module : Module} {token : Token} {row : MemberRef} {spec : MethodSpec}
    (h : module.memberRef? token = some row) (h' : module.methodSpec? token = some spec) : False := by
  have hnone : module.methodSpec? token = none := rowAt?_of_other h (by decide)
  rw [hnone] at h'
  cases h'

/-- What stands at one token is one method. -/
theorem PortableMethod.unique (hfit : last.RowsFit) {form form' : PortableMethod} {token : Token}
    (h : form.store.Stands token last) (h' : form'.store.Stands token last) : form = form' := by
  induction form generalizing form' token with
  | member type name shape =>
    cases placed hfit h with
    | member howned htyped hfound =>
      cases placed hfit h' with
      | member howned' htyped' hfound' =>
        cases hfound.symm.trans hfound'
        rw [PortableType.unique hfit howned howned', PortableMethodSig.unique hfit htyped htyped']
      | instantiation _ _ hfound' => exact (not_methodSpec_of_memberRef hfound hfound').elim
  | instantiation generic forms ih =>
    cases placed hfit h with
    | instantiation hmade happlied hfound =>
      cases placed hfit h' with
      | member _ _ hfound' => exact (not_methodSpec_of_memberRef hfound' hfound).elim
      | instantiation hmade' happlied' hfound' =>
        cases hfound.symm.trans hfound'
        rw [ih hmade hmade', PortableSig.uniqueAll hfit happlied happlied']

end Uniqueness

namespace Module

variable {source : Module} {token token' image : Token}

theorem importMethod_realizes (source : Module) (token : Token) :
    Realizes (source.importMethod token) (source.unfoldMethod? (levelLimit + 1) token) PortableMethod.store :=
  source.importMethodWithin_realizes (levelLimit + 1) token

/-- A method that is imported into one module can be imported into every other. -/
theorem importMethod_anywhere {target last : Module} (h : source.importMethod token target = (.ok image, last))
    (other : Module) : ∃ image' last', source.importMethod token other = (.ok image', last') := by
  obtain ⟨form, hform, -⟩ := (source.importMethod_realizes token _ _ _).mp h
  obtain ⟨image', last', hstore⟩ := form.stores.total other
  exact ⟨image', last', (source.importMethod_realizes token _ _ _).mpr ⟨form, hform, hstore⟩⟩

/-- Two methods that are imported as the same reference are imported as the same one everywhere. -/
theorem ImportsMethod.collapse {last : Module} (hfit : last.RowsFit) (h : source.ImportsMethod last token image)
    (h' : source.ImportsMethod last token' image) : source.importMethod token = source.importMethod token' := by
  obtain ⟨form, hform, hstands⟩ := (source.importMethod_realizes token _ _ _).mp h
  obtain ⟨form', hform', hstands'⟩ := (source.importMethod_realizes token' _ _ _).mp h'
  obtain rfl := PortableMethod.unique hfit hstands hstands'
  funext module
  obtain ⟨value, grown, hstore⟩ := form.stores.total module
  have hfirst := (source.importMethod_realizes token _ _ _).mpr ⟨form, hform, hstore⟩
  have hsecond := (source.importMethod_realizes token' _ _ _).mpr ⟨form, hform', hstore⟩
  exact hfirst.trans hsecond.symm

end Module
end HotPatch
