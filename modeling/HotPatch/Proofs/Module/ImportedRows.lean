import HotPatch.Proofs.Module.StableImport
import HotPatch.Proofs.Module.Built
import HotPatch.Proofs.Module.NestedNames

/-!
# What imported references denote

An import answers with a row that says in the target what the imported row says
in the source. The rows behind it are found in the target as it is at the end,
so the import of what a row refers to is told by importing it once more: the
answer is the same as during the import, and nothing is left to add. Failed
imports may have added references too, but nothing else.
-/

namespace HotPatch

/-- The same signature with related tokens in the places of its tokens. -/
inductive TypeSig.Mirrors (related : Token → Token → Prop) : TypeSig → TypeSig → Prop where
  | primitive (type : Primitive) : Mirrors related (.primitive type) (.primitive type)
  | class {token image : Token} (h : related token image) : Mirrors related (.class token) (.class image)
  | valueType {token image : Token} (h : related token image) :
    Mirrors related (.valueType token) (.valueType image)
  | typeParam (index : Nat) : Mirrors related (.typeParam index) (.typeParam index)
  | methodParam (index : Nat) : Mirrors related (.methodParam index) (.methodParam index)
  | generic {base base' : TypeSig} {args args' : List TypeSig} (hb : Mirrors related base base')
    (ha : List.Forall₂ (Mirrors related) args args') : Mirrors related (.generic base args) (.generic base' args')
  | vector {element element' : TypeSig} (h : Mirrors related element element') :
    Mirrors related (.vector element) (.vector element')
  | byRef {target target' : TypeSig} (h : Mirrors related target target') :
    Mirrors related (.byRef target) (.byRef target')

/-- Method signatures that agree in all but tokens, which are related. -/
structure MethodSig.Mirrors (related : Token → Token → Prop) (sig image : MethodSig) : Prop where
  hasThis : image.hasThis = sig.hasThis
  genericCount : image.genericCount = sig.genericCount
  returnType : sig.returnType.Mirrors related image.returnType
  params : List.Forall₂ (TypeSig.Mirrors related) sig.params image.params

/-- The same assembly, or related enclosing types. -/
inductive Scope.Mirrors (related : Token → Token → Prop) : Scope → Scope → Prop where
  | assembly (name : String) : Mirrors related (.assembly name) (.assembly name)
  | nested {enclosing image : Token} (h : related enclosing image) :
    Mirrors related (.nested enclosing) (.nested image)

namespace Edit

variable {α β : Type} {edit : Edit α} {module last : Module}

/-- The edit answers the value and finds nothing to change. -/
def Stands (edit : Edit α) (value : α) (module : Module) : Prop := edit module = (.ok value, module)

/-- Once an edit that settles has succeeded, it stands. -/
theorem Settles.stands (he : Settles edit) {value : α} (h : edit module = (.ok value, last)) :
    edit.Stands value last := (he _ _ _ h).2 last (.refl last)

namespace Stands

/-- Where two steps stand together, each of them stands. -/
theorem bind {next : α → Edit β} {value : β} (h : (edit >>= next).Stands value last) (he : Settles edit)
    (hn : ∀ value, Settles (next value)) : ∃ first, edit.Stands first last ∧ (next first).Stands value last := by
  obtain ⟨first, middle, hfirst, hnext⟩ := run_bind_eq_ok.mp h
  obtain ⟨hadds, hagain⟩ := hn first _ _ _ hnext
  exact ⟨first, (he _ _ _ hfirst).2 last hadds.toKeepsReferences, hagain last (.refl last)⟩

theorem map {change : α → β} {value : β} (h : (change <$> edit).Stands value last) (he : Settles edit) :
    ∃ first, edit.Stands first last ∧ change first = value := by
  obtain ⟨first, hfirst, hv⟩ := bind h he fun value => Settles.pure (change value)
  exact ⟨first, hfirst, (run_pure_eq_ok.mp hv).1⟩

theorem mapM {items : List α} {step : α → Edit β} {values : List β}
    (h : (items.mapM step).Stands values last) (hs : ∀ item, Settles (step item)) :
    List.Forall₂ (fun item value => (step item).Stands value last) items values := by
  induction items generalizing values with
  | nil =>
    obtain ⟨rfl, -⟩ := run_pure_eq_ok.mp h
    exact .nil
  | cons item items ih =>
    rw [List.mapM_cons] at h
    have hrest := fun items => Settles.closed.mapM items hs
    obtain ⟨value, hv, h⟩ := bind h (hs item) fun value =>
      (hrest items).bind fun rest => .pure (value :: rest)
    obtain ⟨rest, hr, h⟩ := bind h (hrest items) fun rest => .pure (value :: rest)
    obtain ⟨rfl, -⟩ := run_pure_eq_ok.mp h
    exact .cons hv (ih hr)

/-- Looking up stands wherever it finds. -/
theorem inspect_bind {result : Result α} {next : α → Edit β} {value : β}
    (h : ((Edit.inspect fun _ => result) >>= next).Stands value last) :
    ∃ first, result = .ok first ∧ (next first).Stands value last := by
  obtain ⟨first, hfirst, hnext⟩ := Edit.inspect_bind_eq_ok.mp h
  exact ⟨first, hfirst, hnext⟩

end Stands

/-- Whatever the first edit achieves, the second achieves as well. -/
def Below (less more : Edit α) : Prop :=
  ∀ module value last, less module = (.ok value, last) → more module = (.ok value, last)

namespace Below

theorem refl (edit : Edit α) : Below edit edit := fun _ _ _ h => h

theorem trans {less middle more : Edit α} (h : Below less middle) (h' : Below middle more) : Below less more :=
  fun module value last hr => h' module value last (h module value last hr)

theorem throw (error : Error) (edit : Edit α) : Below (throw error) edit := by
  intro module value last h
  exact absurd h throw_ne_ok

theorem bind {less more : Edit α} {next next' : α → Edit β} (h : Below less more)
    (hn : ∀ value, Below (next value) (next' value)) : Below (less >>= next) (more >>= next') := by
  intro module value last hr
  obtain ⟨first, middle, hfirst, hnext⟩ := run_bind_eq_ok.mp hr
  exact run_bind_eq_ok.mpr ⟨first, middle, h _ _ _ hfirst, hn first _ _ _ hnext⟩

theorem map {less more : Edit α} (change : α → β) (h : Below less more) :
    Below (change <$> less) (change <$> more) := h.bind fun value => refl (pure (change value))

theorem mapM {items : List α} {step step' : α → Edit β} (hs : ∀ item, Below (step item) (step' item)) :
    Below (items.mapM step) (items.mapM step') := by
  induction items with
  | nil => exact refl (pure [])
  | cons item items ih =>
    rw [List.mapM_cons, List.mapM_cons]
    exact (hs item).bind fun value => ih.bind fun rest => refl (pure (value :: rest))

end Below
end Edit

namespace Module

open Edit (Settles Stands Below)

variable (source : Module)

section Levels

/-- One more level never hurts. -/
theorem importWithin_succ (levels : Nat) :
    (∀ token, Below (source.importTypeWithin levels token) (source.importTypeWithin (levels + 1) token)) ∧
      ∀ sig, Below (source.importSigWithin levels sig) (source.importSigWithin (levels + 1) sig) := by
  induction levels with
  | zero =>
    constructor
    · intro token
      rw [importTypeWithin]
      exact .throw _ _
    · intro sig
      rw [importSigWithin]
      exact .throw _ _
  | succ levels ih =>
    obtain ⟨iht, ihs⟩ := ih
    constructor
    · intro token
      rw [importTypeWithin, importTypeWithin]
      split
      · apply (Below.refl _).bind
        intro row
        dsimp only
        split
        · exact ((iht _).map _).bind fun scope => .refl _
        · exact .refl _
      · apply (Below.refl _).bind
        intro row
        dsimp only
        split
        · exact ((iht _).map _).bind fun scope => .refl _
        · exact .refl _
      · apply (Below.refl _).bind
        intro row
        exact (ihs _).bind fun sig => .refl _
      · exact .refl _
    · intro sig
      unfold importSigWithin
      cases sig with
      | «class» token => exact (iht _).bind fun token => .refl _
      | valueType token => exact (iht _).bind fun token => .refl _
      | generic base args => exact (ihs _).bind fun base => (Below.mapM ihs).bind fun args => .refl _
      | vector element => exact (ihs _).bind fun element => .refl _
      | byRef target => exact (ihs _).bind fun target => .refl _
      | primitive type => exact .refl _
      | typeParam index => exact .refl _
      | methodParam index => exact .refl _

theorem importMemberWithin_succ (levels : Nat) (parent : Token) (name : String) (sig : MethodSig) :
    Below (source.importMemberWithin levels parent name sig)
      (source.importMemberWithin (levels + 1) parent name sig) := by
  obtain ⟨ht, hs⟩ := source.importWithin_succ levels
  have hsig : Below (source.importMethodSigWithin levels sig) (source.importMethodSigWithin (levels + 1) sig) :=
    (hs _).bind fun returnType => (Below.mapM hs).bind fun params => .refl _
  exact (ht parent).bind fun parent => hsig.bind fun sig => .refl _

theorem importMethodWithin_succ (levels : Nat) (token : Token) :
    Below (source.importMethodWithin levels token) (source.importMethodWithin (levels + 1) token) := by
  induction levels generalizing token with
  | zero => exact .throw _ _
  | succ levels ih =>
    rw [importMethodWithin, importMethodWithin]
    split
    · exact (Below.refl _).bind fun method => source.importMemberWithin_succ levels _ _ _
    · exact (Below.refl _).bind fun row => source.importMemberWithin_succ levels _ _ _
    · apply (Below.refl _).bind
      intro row
      apply (ih _).bind
      intro method
      exact (Below.mapM (source.importWithin_succ levels).2).bind fun args => .refl _
    · exact .refl _

variable {source} {levels more : Nat} (h : levels ≤ more)

include h

theorem importTypeWithin_mono (token : Token) :
    Below (source.importTypeWithin levels token) (source.importTypeWithin more token) := by
  induction h with
  | refl => exact .refl _
  | step _ ih => exact ih.trans ((source.importWithin_succ _).1 token)

theorem importMethodWithin_mono (token : Token) :
    Below (source.importMethodWithin levels token) (source.importMethodWithin more token) := by
  induction h with
  | refl => exact .refl _
  | step _ ih => exact ih.trans (source.importMethodWithin_succ _ token)

end Levels

section Images

/-- The token of the last module that importing the type answers, with nothing left to add. -/
def ImportsType (last : Module) (token image : Token) : Prop := (source.importType token).Stands image last

/-- The same for methods. -/
def ImportsMethod (last : Module) (token image : Token) : Prop := (source.importMethod token).Stands image last

/-- Where references find a definition of this module. -/
def scopeOf (type : TypeDef) : Scope :=
  match type.enclosing with
  | some enclosing => .nested enclosing
  | none => .assembly source.name

/-- What the image of a type says: a definition and a reference become a reference of the same name
in the corresponding scope, and a specification becomes one with the corresponding signature. -/
inductive TypeImage (last : Module) (token image : Token) : Prop where
  | definition {row : TypeDef} {scope : Scope} (found : source.typeDef? token = some row)
    (placed : (source.scopeOf row).Mirrors (source.ImportsType last) scope)
    (stored : last.typeRef? image = some ⟨scope, row.name⟩)
  | reference {row : TypeRef} {scope : Scope} (found : source.typeRef? token = some row)
    (placed : row.scope.Mirrors (source.ImportsType last) scope)
    (stored : last.typeRef? image = some ⟨scope, row.name⟩)
  | specification {row : TypeSpec} {sig : TypeSig} (found : source.typeSpec? token = some row)
    (shaped : row.sig.Mirrors (source.ImportsType last) sig) (stored : last.typeSpec? image = some ⟨sig⟩)

/-- What the image of a method says: a definition and a reference become a reference of the same
name, and an instantiation becomes one of the image of its method. -/
inductive MethodImage (last : Module) (token image : Token) : Prop where
  | definition {row : MethodDef} {parent : Token} {sig : MethodSig} (found : source.method? token = some row)
    (owned : source.ImportsType last row.owner parent) (typed : row.sig.Mirrors (source.ImportsType last) sig)
    (stored : last.memberRef? image = some ⟨parent, row.name, sig⟩)
  | reference {row : MemberRef} {parent : Token} {sig : MethodSig} (found : source.memberRef? token = some row)
    (owned : source.ImportsType last row.parent parent) (typed : row.sig.Mirrors (source.ImportsType last) sig)
    (stored : last.memberRef? image = some ⟨parent, row.name, sig⟩)
  | instantiation {row : MethodSpec} {method : Token} {args : List TypeSig}
    (found : source.methodSpec? token = some row) (instantiates : source.ImportsMethod last row.method method)
    (applied : List.Forall₂ (TypeSig.Mirrors (source.ImportsType last)) row.args args)
    (stored : last.methodSpec? image = some ⟨method, args⟩)

variable {source} {last : Module} {levels : Nat} {token image : Token}

theorem importsType_of_within (hl : levels ≤ levelLimit + 1)
    (h : (source.importTypeWithin levels token).Stands image last) : source.ImportsType last token image :=
  importTypeWithin_mono hl token _ _ _ h

theorem importsMethod_of_within (hl : levels ≤ levelLimit + 1)
    (h : (source.importMethodWithin levels token).Stands image last) : source.ImportsMethod last token image :=
  importMethodWithin_mono hl token _ _ _ h

theorem mirrors_of_within (hl : levels ≤ levelLimit + 1) {sig sig' : TypeSig}
    (h : (source.importSigWithin levels sig).Stands sig' last) : sig.Mirrors (source.ImportsType last) sig' := by
  induction levels generalizing sig sig' with
  | zero =>
    rw [importSigWithin] at h
    exact absurd h Edit.throw_ne_ok
  | succ levels ih =>
    obtain ⟨ht, hs⟩ := source.importWithin_settles levels
    have hle : levels ≤ levelLimit + 1 := by omega
    unfold importSigWithin at h
    cases sig with
    | «class» token =>
      obtain ⟨image, hi, h⟩ := h.bind (ht _) fun token => .pure _
      obtain ⟨rfl, -⟩ := run_pure_eq_ok.mp h
      exact .class (importsType_of_within hle hi)
    | valueType token =>
      obtain ⟨image, hi, h⟩ := h.bind (ht _) fun token => .pure _
      obtain ⟨rfl, -⟩ := run_pure_eq_ok.mp h
      exact .valueType (importsType_of_within hle hi)
    | generic base args =>
      have hmap := Settles.closed.mapM args hs
      obtain ⟨base', hb, h⟩ := h.bind (hs _) fun base => hmap.bind fun args => .pure _
      obtain ⟨args', ha, h⟩ := h.bind hmap fun args => .pure _
      obtain ⟨rfl, -⟩ := run_pure_eq_ok.mp h
      exact .generic (ih hle hb) ((ha.mapM hs).imp fun arg arg' => ih hle)
    | vector element =>
      obtain ⟨element', he, h⟩ := h.bind (hs _) fun element => .pure _
      obtain ⟨rfl, -⟩ := run_pure_eq_ok.mp h
      exact .vector (ih hle he)
    | byRef target =>
      obtain ⟨target', ht, h⟩ := h.bind (hs _) fun target => .pure _
      obtain ⟨rfl, -⟩ := run_pure_eq_ok.mp h
      exact .byRef (ih hle ht)
    | primitive type =>
      obtain ⟨rfl, -⟩ := run_pure_eq_ok.mp h
      exact .primitive type
    | typeParam index =>
      obtain ⟨rfl, -⟩ := run_pure_eq_ok.mp h
      exact .typeParam index
    | methodParam index =>
      obtain ⟨rfl, -⟩ := run_pure_eq_ok.mp h
      exact .methodParam index

/-- A scope is settled before the reference in it is added. -/
theorem typeRef?_of_scoped {step : Edit Scope} {name : TypeName} (hs : Settles step) (hfit : last.RowsFit)
    (h : (step >>= fun scope => Edit.always (·.addTypeRef ⟨scope, name⟩)).Stands image last) :
    ∃ scope, step.Stands scope last ∧ last.typeRef? image = some ⟨scope, name⟩ := by
  obtain ⟨scope, hscope, hadd⟩ := h.bind hs fun scope => .addTypeRef _
  exact ⟨scope, hscope, typeRef?_addTypeRef (Edit.always_eq_ok.mp hadd) hfit⟩

theorem scopeMirrors_of_nested (hl : levels ≤ levelLimit + 1) {enclosing : Token} {scope : Scope}
    (h : (Scope.nested <$> source.importTypeWithin levels enclosing).Stands scope last) :
    (Scope.nested enclosing).Mirrors (source.ImportsType last) scope := by
  obtain ⟨image, himage, rfl⟩ := h.map ((source.importWithin_settles levels).1 enclosing)
  exact .nested (importsType_of_within hl himage)

theorem scopeMirrors_of_assembly {name : String} {scope : Scope}
    (h : (pure (.assembly name) : Edit Scope).Stands scope last) :
    (Scope.assembly name).Mirrors (source.ImportsType last) scope := by
  obtain ⟨rfl, -⟩ := run_pure_eq_ok.mp h
  exact .assembly name

theorem ImportsType.typeImage (h : source.ImportsType last token image) (hfit : last.RowsFit) :
    source.TypeImage last token image := by
  obtain ⟨ht, hs⟩ := source.importWithin_settles levelLimit
  have hle : levelLimit ≤ levelLimit + 1 := by omega
  rw [ImportsType, importType, importTypeWithin] at h
  split at h
  · obtain ⟨⟨name, flags, base, enclosing, generics, fields, methods⟩, hfound, h⟩ := h.inspect_bind
    rw [require_eq_ok] at hfound
    cases enclosing with
    | some enclosing =>
      obtain ⟨scope, hscope, hrow⟩ := typeRef?_of_scoped ((Settles.closed.map _ (ht _))) hfit h
      exact .definition hfound (scopeMirrors_of_nested hle hscope) hrow
    | none =>
      obtain ⟨scope, hscope, hrow⟩ := typeRef?_of_scoped (.pure _) hfit h
      exact .definition hfound (scopeMirrors_of_assembly hscope) hrow
  · obtain ⟨⟨placed, name⟩, hfound, h⟩ := h.inspect_bind
    rw [require_eq_ok] at hfound
    cases placed with
    | nested enclosing =>
      obtain ⟨scope, hscope, hrow⟩ := typeRef?_of_scoped (Settles.closed.map _ (ht _)) hfit h
      exact .reference hfound (scopeMirrors_of_nested hle hscope) hrow
    | assembly assembly =>
      obtain ⟨scope, hscope, hrow⟩ := typeRef?_of_scoped (.pure _) hfit h
      exact .reference hfound (scopeMirrors_of_assembly hscope) hrow
  · obtain ⟨row, hfound, h⟩ := h.inspect_bind
    obtain ⟨sig, hsig, hadd⟩ := h.bind (hs _) fun sig => .addTypeSpec sig
    exact .specification (require_eq_ok.mp hfound) (mirrors_of_within hle hsig)
      (typeSpec?_addTypeSpec (Edit.always_eq_ok.mp hadd) hfit)
  · exact absurd h Edit.throw_ne_ok

theorem methodSigMirrors_of_within (hl : levels ≤ levelLimit + 1) {sig sig' : MethodSig}
    (h : (source.importMethodSigWithin levels sig).Stands sig' last) :
    sig.Mirrors (source.ImportsType last) sig' := by
  have hs := (source.importWithin_settles levels).2
  have hmap := Settles.closed.mapM sig.params hs
  obtain ⟨returnType, hr, h⟩ := h.bind (hs _) fun returnType => hmap.bind fun params => .pure _
  obtain ⟨params, hp, h⟩ := h.bind hmap fun params => .pure _
  obtain ⟨rfl, -⟩ := run_pure_eq_ok.mp h
  exact ⟨rfl, rfl, mirrors_of_within hl hr, (hp.mapM hs).imp fun param param' => mirrors_of_within hl⟩

/-- The image of a member has the image of its owner and the same name. -/
theorem memberRef?_of_member (hl : levels ≤ levelLimit + 1) (hfit : last.RowsFit) {owner : Token} {name : String}
    {sig : MethodSig} (h : (source.importMemberWithin levels owner name sig).Stands image last) :
    ∃ parent sig', source.ImportsType last owner parent ∧ sig.Mirrors (source.ImportsType last) sig' ∧
      last.memberRef? image = some ⟨parent, name, sig'⟩ := by
  have hsig := Settles.closed.importMethodSigWithin source levels sig
  obtain ⟨parent, hparent, h⟩ := h.bind ((source.importWithin_settles levels).1 owner) fun parent =>
    hsig.bind fun sig => .addMemberRef _
  obtain ⟨sig', hs, hadd⟩ := h.bind hsig fun sig => .addMemberRef _
  exact ⟨parent, sig', importsType_of_within hl hparent, methodSigMirrors_of_within hl hs,
    memberRef?_addMemberRef (Edit.always_eq_ok.mp hadd) hfit⟩

theorem ImportsMethod.methodImage (h : source.ImportsMethod last token image) (hfit : last.RowsFit) :
    source.MethodImage last token image := by
  have hle : levelLimit ≤ levelLimit + 1 := by omega
  rw [ImportsMethod, importMethod, importMethodWithin] at h
  split at h
  · obtain ⟨row, hfound, h⟩ := h.inspect_bind
    obtain ⟨method, hmethod, hrow⟩ := bind_eq_ok.mp hfound
    obtain ⟨owner, -, hrow⟩ := bind_eq_ok.mp hrow
    obtain ⟨parent, sig, howned, htyped, hstored⟩ := memberRef?_of_member hle hfit h
    split_ifs at hrow with hgeneric
    · obtain ⟨text, -, hrow⟩ := bind_eq_ok.mp hrow
      cases hrow
    · cases hrow
      exact .definition (require_eq_ok.mp hmethod) howned htyped hstored
  · obtain ⟨row, hfound, h⟩ := h.inspect_bind
    obtain ⟨parent, sig, howned, htyped, hstored⟩ := memberRef?_of_member hle hfit h
    exact .reference (require_eq_ok.mp hfound) howned htyped hstored
  · obtain ⟨row, hfound, h⟩ := h.inspect_bind
    have hs := (source.importWithin_settles levelLimit).2
    have hmap := Settles.closed.mapM row.args hs
    obtain ⟨method, hmethod, h⟩ := h.bind (source.importMethodWithin_settles levelLimit row.method)
      fun method => hmap.bind fun args => .addMethodSpec _
    obtain ⟨args, hargs, hadd⟩ := h.bind hmap fun args => .addMethodSpec _
    exact .instantiation (require_eq_ok.mp hfound) (importsMethod_of_within hle hmethod)
      ((hargs.mapM hs).imp fun arg arg' => mirrors_of_within hle)
      (methodSpec?_addMethodSpec (Edit.always_eq_ok.mp hadd) hfit)
  · exact absurd h Edit.throw_ne_ok

end Images

section Names

variable {source} {last : Module} {levels : Nat} {token image : Token}

/-- The image has the name of the type, though it may be found in another assembly. -/
theorem ImportsType.nestedName (h : source.ImportsType last token image) (hfit : last.RowsFit)
    {name : NestedName} (hn : source.nestedName levels token = .ok name) :
    ∃ assembly, last.nestedName levels image = .ok { name with assembly } := by
  induction levels generalizing token image name with
  | zero => cases hn
  | succ levels ih =>
    -- The levels of the image correspond to those of the type, so one bound serves both.
    have hnest : ∀ {enclosing outer : Token} {simple : String}, source.Inside token simple enclosing →
        last.Inside image simple outer → source.ImportsType last enclosing outer →
        ∃ assembly, last.nestedName (levels + 1) image = .ok { name with assembly } := by
      intro enclosing outer simple hinside himage houter
      rw [hinside.nestedName] at hn
      obtain ⟨inner, hinner, rfl⟩ := map_eq_ok.mp hn
      obtain ⟨assembly, hlast⟩ := ih houter hinner
      exact ⟨assembly, by rw [himage.nestedName, hlast]; rfl⟩
    have htop : ∀ {simple : TypeName} {home place : Option String}, source.AtTop token simple home →
        last.AtTop image simple place → ∃ assembly, last.nestedName (levels + 1) image = .ok { name with assembly } := by
      intro simple home place hsource himage
      rw [hsource.nestedName] at hn
      cases hn
      exact ⟨place, himage.nestedName levels⟩
    cases h.typeImage hfit with
    | @definition row scope hfound hplaced hstored =>
      unfold scopeOf at hplaced
      rcases he : row.enclosing with - | enclosing <;> rw [he] at hplaced
      · cases hplaced
        have himage := AtTop.reference hstored rfl
        exact htop (.definition hfound he) himage
      · cases hplaced with
        | nested houter =>
          have himage := Inside.reference hstored rfl
          exact hnest (.definition hfound he) himage houter
    | @reference row scope hfound hplaced hstored =>
      rcases he : row.scope with assembly | enclosing <;> rw [he] at hplaced
      · cases hplaced
        have himage := AtTop.reference hstored rfl
        exact htop (.reference hfound he) himage
      · cases hplaced with
        | nested houter =>
          have himage := Inside.reference hstored rfl
          exact hnest (.reference hfound he) himage houter
    | specification hfound =>
      have hnone : source.NoType token := ⟨rowAt?_of_other hfound (by decide), rowAt?_of_other hfound (by decide)⟩
      rw [hnone.nestedName] at hn
      cases hn

theorem ImportsType.fullName (h : source.ImportsType last token image) (hfit : last.RowsFit) {text : String}
    (hn : source.fullName token = .ok text) : last.fullName image = .ok text := by
  obtain ⟨name, hname, htext⟩ := bind_eq_ok.mp hn
  obtain ⟨assembly, hlast⟩ := h.nestedName hfit hname
  exact bind_eq_ok.mpr ⟨_, hlast, htext⟩

end Names

section Outcome

/-- However the edit ends, it has added references and nothing else. -/
def Adds {α : Type} (edit : Edit α) : Prop := ∀ module, AddsReferences module (edit module).2

theorem adds_closed : Edit.Closed fun _ edit => Adds edit where
  pure _ module := .refl module
  fail _ module := .refl module
  inspect _ module := .refl module
  addTypeRef row module := module.addTypeRef_adds row
  addMemberRef row module := module.addMemberRef_adds row
  addTypeSpec sig module := module.addTypeSpec_adds sig
  addMethodSpec row module := module.addMethodSpec_adds row
  bind := by
    intro α β edit next he hn module
    have hfirst := he module
    rw [bind_apply]
    rcases hr : edit module with ⟨error | value, middle⟩ <;> rw [hr] at hfirst
    · exact hfirst
    · exact hfirst.trans (hn value middle)

/-- An import that succeeds answers with a row that denotes in the target what the imported row
denotes in the source, and no import touches the rows that were there. -/
theorem import_denotes (source target : Module) :
    (∀ token, target.AddsReferences (source.importType token target).2) ∧
      (∀ sig, target.AddsReferences (source.importSig sig target).2) ∧
      (∀ token, target.AddsReferences (source.importMethod token target).2) ∧
      (∀ token image last, source.importType token target = (.ok image, last) → last.RowsFit →
        source.ImportsType last token image ∧ source.TypeImage last token image ∧
          ∀ text, source.fullName token = .ok text → last.fullName image = .ok text) ∧
      (∀ sig image last, source.importSig sig target = (.ok image, last) →
        sig.Mirrors (source.ImportsType last) image) ∧
      ∀ token image last, source.importMethod token target = (.ok image, last) → last.RowsFit →
        source.ImportsMethod last token image ∧ source.MethodImage last token image := by
  obtain ⟨haddsType, haddsSig⟩ := adds_closed.importWithin source (levelLimit + 1)
  obtain ⟨htype, hsig⟩ := source.importWithin_settles (levelLimit + 1)
  refine ⟨fun token => haddsType token target, fun sig => haddsSig sig target,
    fun token => adds_closed.importMethodWithin source _ token target, ?_, ?_, ?_⟩
  · intro token image last h hfit
    have hstands : source.ImportsType last token image := (htype token).stands h
    exact ⟨hstands, hstands.typeImage hfit, fun text => hstands.fullName hfit⟩
  · intro sig image last h
    exact mirrors_of_within le_rfl ((hsig sig).stands h)
  · intro token image last h hfit
    have hstands : source.ImportsMethod last token image := (source.importMethod_settles token).stands h
    exact ⟨hstands, hstands.methodImage hfit⟩

end Outcome

/-!
A module with a method of a nested type, instantiated with a list of that type,
and one that already refers to the list.
-/

namespace Instantiated

def list : TypeRef := ⟨.assembly "mscorlib", ⟨"System", "List"⟩⟩

def inner : Token := .ofRow .typeDef 2

def listOfInner : TypeSig := .generic (.class (.ofRow .typeRef 1)) [.class inner]

def make : MethodDef :=
  { owner := inner, name := "Make", generics := ["T"],
    sig := { returnType := .class inner, params := [.methodParam 0] } }

def types : Module :=
  ((Module.addTypeRef { name := "Game" } list).2.withType { name := ⟨"App", "Outer"⟩ }).withType
    { name := ⟨"", "Inner"⟩, enclosing := some (.ofRow .typeDef 1) }

def game : Module := ((types.withMethod make).addMethodSpec ⟨.ofRow .methodDef 1, [listOfInner]⟩).2

def patch : Module := (Module.addTypeRef { name := "Patch" } list).2

def afterType : Module := (game.importType inner patch).2

def afterMethod : Module := (game.importMethod (.ofRow .methodSpec 1) patch).2

end Instantiated

open Instantiated in
/-- The nested type comes behind its enclosing type, and the list that was there is shared. -/
theorem import_denotes_instantiated :
    (game.importType inner patch = (.ok (.ofRow .typeRef 3), afterType) ∧ afterType.RowsFit ∧
      game.TypeImage afterType inner (.ofRow .typeRef 3) ∧
        afterType.fullName (.ofRow .typeRef 3) = .ok "App.Outer/Inner") ∧
      (∃ last, game.importSig listOfInner patch =
          (.ok (.generic (.class (.ofRow .typeRef 1)) [.class (.ofRow .typeRef 3)]), last) ∧
        listOfInner.Mirrors (game.ImportsType last)
          (.generic (.class (.ofRow .typeRef 1)) [.class (.ofRow .typeRef 3)])) ∧
      game.importMethod (.ofRow .methodSpec 1) patch = (.ok (.ofRow .methodSpec 1), afterMethod) ∧
        afterMethod.RowsFit ∧ game.MethodImage afterMethod (.ofRow .methodSpec 1) (.ofRow .methodSpec 1) := by
  obtain ⟨-, -, -, htype, hsig, hmethod⟩ := import_denotes game patch
  have ht : game.importType inner patch = (.ok (.ofRow .typeRef 3), afterType) :=
    eq_of_toOption (by decide +kernel)
  have hs : game.importSig listOfInner patch =
      (.ok (.generic (.class (.ofRow .typeRef 1)) [.class (.ofRow .typeRef 3)]),
        (game.importSig listOfInner patch).2) := eq_of_toOption (by decide +kernel)
  have hm : game.importMethod (.ofRow .methodSpec 1) patch = (.ok (.ofRow .methodSpec 1), afterMethod) :=
    eq_of_toOption (by decide +kernel)
  have hfit : afterType.RowsFit := by
    intro table
    cases table <;> decide +kernel
  have hfit' : afterMethod.RowsFit := by
    intro table
    cases table <;> decide +kernel
  have hname : game.fullName inner = .ok "App.Outer/Inner" := rfl
  obtain ⟨-, himage, htext⟩ := htype _ _ _ ht hfit
  exact ⟨⟨ht, hfit, himage, htext _ hname⟩, ⟨_, hs, hsig _ _ _ hs⟩, hm, hfit', (hmethod _ _ _ hm hfit').2⟩

end Module
end HotPatch
