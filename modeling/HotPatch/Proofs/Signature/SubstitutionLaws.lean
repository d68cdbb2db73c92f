import HotPatch.Proofs.Signature.OpenTypes

/-!
# Laws of substitution

Substitution fails for lack of an argument only, and the error names a parameter
that lacks one. It leaves concrete types alone and makes types concrete if the
arguments are. Arguments may be filled in at once or in two steps. The laws hold
of a type, and of a method signature through the types it is made of.
-/

namespace HotPatch

section Errors

variable {ε α β : Type}

theorem bind_eq_error {action : Except ε α} {next : α → Except ε β} {error : ε} :
    (action >>= next) = .error error ↔
      action = .error error ∨ ∃ first, action = .ok first ∧ next first = .error error := by
  rcases action with found | first
  · constructor
    · intro h
      cases h
      exact .inl rfl
    · rintro (h | ⟨first, hfirst, -⟩)
      · cases h
        rfl
      · cases hfirst
  · constructor
    · intro h
      exact .inr ⟨first, rfl, h⟩
    · rintro (h | ⟨first', hfirst, h⟩)
      · cases h
      · cases hfirst
        exact h

theorem exists_of_mapM_eq_error {f : α → Except ε β} {items : List α} {error : ε}
    (h : items.mapM f = .error error) : ∃ item ∈ items, f item = .error error := by
  induction items with
  | nil => cases h
  | cons item items ih =>
    rw [List.mapM_cons] at h
    rcases bind_eq_error.mp h with hitem | ⟨value, -, h⟩
    · exact ⟨item, List.mem_cons_self, hitem⟩
    · rcases bind_eq_error.mp h with hrest | ⟨values, -, h⟩
      · obtain ⟨other, hother, hf⟩ := ih hrest
        exact ⟨other, List.mem_cons_of_mem _ hother, hf⟩
      · cases h

/-- A computation without a value has an error. -/
theorem exists_eq_error_iff {result : Except ε α} :
    (∃ error, result = .error error) ↔ ¬∃ value, result = .ok value := by
  rcases result with error | value
  · exact iff_of_true ⟨error, rfl⟩ (fun ⟨_, h⟩ => nomatch h)
  · exact iff_of_false (fun ⟨_, h⟩ => nomatch h) (fun h => h ⟨value, rfl⟩)

end Errors

namespace TypeSig

variable {typeArgs methodArgs : List TypeSig} {sig : TypeSig}

/-- A parameter that occurs in the type has no argument. -/
inductive Lacks (typeArgs methodArgs : List TypeSig) (sig : TypeSig) : OpenCause → Prop where
  | typeParam {index : Nat} (occurs : PartOf children (.typeParam index) sig) (missing : typeArgs[index]? = none) :
    Lacks typeArgs methodArgs sig (.typeParam index)
  | methodParam {index : Nat} (occurs : PartOf children (.methodParam index) sig)
    (missing : methodArgs[index]? = none) : Lacks typeArgs methodArgs sig (.methodParam index)

theorem not_covered_iff : ¬sig.Covered typeArgs methodArgs ↔ ∃ cause, sig.Lacks typeArgs methodArgs cause := by
  constructor
  · intro h
    simp only [Covered, Everywhere, not_forall] at h
    obtain ⟨part, hpart, hat⟩ := h
    cases part with
    | typeParam index => exact ⟨_, .typeParam hpart (List.getElem?_eq_none (Nat.le_of_not_lt hat))⟩
    | methodParam index => exact ⟨_, .methodParam hpart (List.getElem?_eq_none (Nat.le_of_not_lt hat))⟩
    | primitive | «class» | valueType | generic | vector | byRef => exact absurd trivial hat
  · rintro ⟨cause, hlacks⟩ hcovered
    cases hlacks with
    | typeParam occurs missing => exact Nat.not_lt.mpr (List.getElem?_eq_none_iff.mp missing) (hcovered _ occurs)
    | methodParam occurs missing => exact Nat.not_lt.mpr (List.getElem?_eq_none_iff.mp missing) (hcovered _ occurs)

/-- What a part lacks, the whole lacks. -/
theorem Lacks.inside {child : TypeSig} {cause : OpenCause} (h : child.Lacks typeArgs methodArgs cause)
    (hmem : child ∈ sig.children) : sig.Lacks typeArgs methodArgs cause := by
  cases h with
  | typeParam occurs missing => exact .typeParam (.inside hmem occurs) missing
  | methodParam occurs missing => exact .methodParam (.inside hmem occurs) missing

theorem argument_eq_error {args : List TypeSig} {index : Nat} {cause : OpenCause} {error : Error}
    (h : argument args index cause = .error error) : args[index]? = none ∧ error = .notConcrete cause := by
  unfold argument at h
  split at h
  · cases h
  · rename_i hnone
    cases h
    exact ⟨hnone, rfl⟩

/-- The error names a parameter that lacks an argument. -/
theorem substitute_eq_error {error : Error} (h : sig.substitute typeArgs methodArgs = .error error) :
    ∃ cause, sig.Lacks typeArgs methodArgs cause ∧ error = .notConcrete cause := by
  induction sig using TypeSig.induct with
  | primitive | named | valueType => cases h
  | typeParam index =>
    obtain ⟨hnone, rfl⟩ := argument_eq_error h
    exact ⟨_, .typeParam .self hnone, rfl⟩
  | methodParam index =>
    obtain ⟨hnone, rfl⟩ := argument_eq_error h
    exact ⟨_, .methodParam .self hnone, rfl⟩
  | generic base args ihbase ihargs =>
    rw [substitute, substituteAll_eq_mapM] at h
    rcases bind_eq_error.mp h with hbase | ⟨base', -, h⟩
    · obtain ⟨cause, hlacks, he⟩ := ihbase hbase
      exact ⟨cause, hlacks.inside List.mem_cons_self, he⟩
    · rcases bind_eq_error.mp h with hargs | ⟨args', -, h⟩
      · obtain ⟨arg, ha, harg⟩ := exists_of_mapM_eq_error hargs
        obtain ⟨cause, hlacks, he⟩ := ihargs arg ha harg
        exact ⟨cause, hlacks.inside (List.mem_cons_of_mem _ ha), he⟩
      · cases h
  | vector element ih =>
    rw [substitute] at h
    rcases bind_eq_error.mp h with helement | ⟨element', -, h⟩
    · obtain ⟨cause, hlacks, he⟩ := ih helement
      exact ⟨cause, hlacks.inside List.mem_cons_self, he⟩
    · cases h
  | byRef target ih =>
    rw [substitute] at h
    rcases bind_eq_error.mp h with htarget | ⟨target', -, h⟩
    · obtain ⟨cause, hlacks, he⟩ := ih htarget
      exact ⟨cause, hlacks.inside List.mem_cons_self, he⟩
    · cases h

section Concrete

theorem covered_of_isConcrete (typeArgs methodArgs : List TypeSig) (h : sig.isConcrete) :
    sig.Covered typeArgs methodArgs := by
  induction sig using TypeSig.induct with
  | primitive | named | valueType => exact (everywhere_of_leaf rfl).mpr trivial
  | typeParam | methodParam => cases h
  | generic base args ihbase ihargs =>
    rw [isConcrete, Bool.and_eq_true, allConcrete_iff] at h
    exact covered_generic.mpr ⟨ihbase h.1, fun arg ha => ihargs arg ha (h.2 arg ha)⟩
  | vector element ih => exact covered_vector.mpr (ih h)
  | byRef target ih => exact covered_byRef.mpr (ih h)

theorem instantiate_of_isConcrete (typeArgs methodArgs : List TypeSig) (h : sig.isConcrete) :
    sig.instantiate typeArgs methodArgs = sig := by
  induction sig using TypeSig.induct with
  | primitive | named | valueType => rfl
  | typeParam | methodParam => cases h
  | generic base args ihbase ihargs =>
    rw [isConcrete, Bool.and_eq_true, allConcrete_iff] at h
    have hargs : args.map (instantiate typeArgs methodArgs) = args :=
      (List.map_congr_left fun arg ha => ihargs arg ha (h.2 arg ha)).trans (List.map_id' args)
    rw [instantiate, instantiateAll_eq_map, ihbase h.1, hargs]
  | vector element ih => rw [instantiate, ih h]
  | byRef target ih => rw [instantiate, ih h]

end Concrete

section Twice

variable {typeArgs' methodArgs' : List TypeSig}

/-- The argument for a parameter is one of the arguments. -/
theorem exists_argument {args : List TypeSig} {index : Nat} {other : TypeSig} (h : index < args.length) :
    ∃ arg ∈ args, args[index]?.getD other = arg ∧
      ∀ (change : TypeSig → TypeSig) default, (args.map change)[index]?.getD default = change arg := by
  refine ⟨args[index], List.getElem_mem h, ?_, fun change default => ?_⟩
  · rw [List.getElem?_eq_getElem h, Option.getD_some]
  · rw [List.getElem?_map, List.getElem?_eq_getElem h, Option.map_some, Option.getD_some]

/-- An instance has parameters of the arguments only. -/
theorem covered_instantiate (hc : sig.Covered typeArgs methodArgs)
    (ht : ∀ arg ∈ typeArgs, arg.Covered typeArgs' methodArgs')
    (hm : ∀ arg ∈ methodArgs, arg.Covered typeArgs' methodArgs') :
    (sig.instantiate typeArgs methodArgs).Covered typeArgs' methodArgs' := by
  induction sig using TypeSig.induct with
  | primitive | named | valueType => exact (everywhere_of_leaf rfl).mpr trivial
  | typeParam index =>
    obtain ⟨arg, ha, harg, -⟩ := exists_argument (hc _ .self)
    rw [instantiate, harg]
    exact ht arg ha
  | methodParam index =>
    obtain ⟨arg, ha, harg, -⟩ := exists_argument (hc _ .self)
    rw [instantiate, harg]
    exact hm arg ha
  | generic base args ihbase ihargs =>
    obtain ⟨hbase, hargs⟩ := covered_generic.mp hc
    rw [instantiate, instantiateAll_eq_map, covered_generic]
    exact ⟨ihbase hbase, List.forall_mem_map.mpr fun arg ha => ihargs arg ha (hargs arg ha)⟩
  | vector element ih => exact covered_vector.mpr (ih (covered_vector.mp hc))
  | byRef target ih => exact covered_byRef.mpr (ih (covered_byRef.mp hc))

/-- An instance of an instance has the instances of the arguments in it. -/
theorem instantiate_instantiate (hc : sig.Covered typeArgs methodArgs) :
    (sig.instantiate typeArgs methodArgs).instantiate typeArgs' methodArgs' =
      sig.instantiate (typeArgs.map (·.instantiate typeArgs' methodArgs'))
        (methodArgs.map (·.instantiate typeArgs' methodArgs')) := by
  induction sig using TypeSig.induct with
  | primitive | named | valueType => rfl
  | typeParam index =>
    obtain ⟨arg, -, harg, hmapped⟩ := exists_argument (hc _ .self)
    rw [instantiate, instantiate, harg, hmapped]
  | methodParam index =>
    obtain ⟨arg, -, harg, hmapped⟩ := exists_argument (hc _ .self)
    rw [instantiate, instantiate, harg, hmapped]
  | generic base args ihbase ihargs =>
    obtain ⟨hbase, hargs⟩ := covered_generic.mp hc
    simp only [instantiate, instantiateAll_eq_map, List.map_map]
    rw [ihbase hbase]
    exact congrArg _ (List.map_congr_left fun arg ha => ihargs arg ha (hargs arg ha))
  | vector element ih => rw [instantiate, instantiate, instantiate, ih (covered_vector.mp hc)]
  | byRef target ih => rw [instantiate, instantiate, instantiate, ih (covered_byRef.mp hc)]

/-- Only the numbers of the arguments count. -/
theorem Covered.of_length (h : sig.Covered typeArgs methodArgs) (ht : typeArgs'.length = typeArgs.length)
    (hm : methodArgs'.length = methodArgs.length) : sig.Covered typeArgs' methodArgs' := by
  intro part hpart
  have hat := h part hpart
  cases part with
  | typeParam index => exact Nat.lt_of_lt_of_eq hat ht.symm
  | methodParam index => exact Nat.lt_of_lt_of_eq hat hm.symm
  | primitive | «class» | valueType | generic | vector | byRef => trivial

/-- Arguments that all have instances are covered, and the instances are theirs. -/
theorem covered_of_substituted {args args' : List TypeSig}
    (h : List.Forall₂ (fun arg arg' => arg.substitute typeArgs' methodArgs' = .ok arg') args args') :
    (∀ arg ∈ args, arg.Covered typeArgs' methodArgs') ∧
      args' = args.map (·.instantiate typeArgs' methodArgs') :=
  (mapM_eq_ok_map fun _ _ _ => substitute_eq_ok).mp (mapM_eq_ok.mpr h)

end Twice
end TypeSig

section Laws

variable {σ : Type} (types : σ → List TypeSig) (substitute : List TypeSig → List TypeSig → σ → Result σ)
  (closed : σ → σ)

/-- The laws of a substitution that acts on the types which something is made of. What is concrete is only
closed by it. -/
structure SubstitutionLaws : Prop where
  fails : ∀ typeArgs methodArgs whole, (∃ error, substitute typeArgs methodArgs whole = .error error) ↔
    ∃ sig ∈ types whole, ∃ cause, sig.Lacks typeArgs methodArgs cause
  names : ∀ typeArgs methodArgs whole error, substitute typeArgs methodArgs whole = .error error →
    ∃ sig ∈ types whole, ∃ cause, sig.Lacks typeArgs methodArgs cause ∧ error = .notConcrete cause
  keeps : ∀ typeArgs methodArgs whole, (∀ sig ∈ types whole, sig.isConcrete) →
    substitute typeArgs methodArgs whole = .ok (closed whole)
  concrete : ∀ typeArgs methodArgs whole whole', (∀ arg ∈ typeArgs, arg.isConcrete) →
    (∀ arg ∈ methodArgs, arg.isConcrete) → substitute typeArgs methodArgs whole = .ok whole' →
      ∀ sig ∈ types whole', sig.isConcrete
  composes : ∀ typeArgs methodArgs innerTypes innerMethods typeArgs' methodArgs' whole whole',
    List.Forall₂ (fun arg arg' => arg.substitute innerTypes innerMethods = .ok arg') typeArgs typeArgs' →
    List.Forall₂ (fun arg arg' => arg.substitute innerTypes innerMethods = .ok arg') methodArgs methodArgs' →
      substitute typeArgs methodArgs whole = .ok whole' →
        substitute innerTypes innerMethods whole' = substitute typeArgs' methodArgs' whole

/-- A substitution that puts the instances of the types in their places. -/
structure ActsOnTypes (instantiate : List TypeSig → List TypeSig → σ → σ) : Prop where
  succeeds : ∀ {typeArgs methodArgs whole whole'}, substitute typeArgs methodArgs whole = .ok whole' ↔
    (∀ sig ∈ types whole, sig.Covered typeArgs methodArgs) ∧ whole' = instantiate typeArgs methodArgs whole
  error : ∀ {typeArgs methodArgs whole error}, substitute typeArgs methodArgs whole = .error error →
    ∃ sig ∈ types whole, sig.substitute typeArgs methodArgs = .error error
  types_instantiate : ∀ typeArgs methodArgs whole, types (instantiate typeArgs methodArgs whole) =
    (types whole).map (·.instantiate typeArgs methodArgs)
  closes : ∀ {typeArgs methodArgs whole}, (∀ sig ∈ types whole, sig.instantiate typeArgs methodArgs = sig) →
    instantiate typeArgs methodArgs whole = closed whole
  twice : ∀ {typeArgs methodArgs innerTypes innerMethods typeArgs' methodArgs' whole},
    (∀ sig ∈ types whole, (sig.instantiate typeArgs methodArgs).instantiate innerTypes innerMethods =
      sig.instantiate typeArgs' methodArgs') →
    instantiate innerTypes innerMethods (instantiate typeArgs methodArgs whole) =
      instantiate typeArgs' methodArgs' whole

variable {types substitute closed} {instantiate : List TypeSig → List TypeSig → σ → σ}

/-- All laws come down to those of the single types. -/
theorem ActsOnTypes.laws (h : ActsOnTypes types substitute closed instantiate) :
    SubstitutionLaws types substitute closed where
  fails typeArgs methodArgs whole := by
    have hok : (∃ whole', substitute typeArgs methodArgs whole = .ok whole') ↔
        ∀ sig ∈ types whole, sig.Covered typeArgs methodArgs :=
      ⟨fun ⟨_, hs⟩ => (h.succeeds.mp hs).1, fun hc => ⟨_, h.succeeds.mpr ⟨hc, rfl⟩⟩⟩
    rw [exists_eq_error_iff, hok]
    simp only [← TypeSig.not_covered_iff, not_forall, exists_prop]
  names typeArgs methodArgs whole error he := by
    obtain ⟨sig, hm, hsig⟩ := h.error he
    exact ⟨sig, hm, TypeSig.substitute_eq_error hsig⟩
  keeps typeArgs methodArgs whole hconcrete := by
    refine h.succeeds.mpr ⟨fun sig hm => TypeSig.covered_of_isConcrete _ _ (hconcrete sig hm), ?_⟩
    exact (h.closes fun sig hm => TypeSig.instantiate_of_isConcrete _ _ (hconcrete sig hm)).symm
  concrete typeArgs methodArgs whole whole' ht hm hs := by
    obtain ⟨hcovered, rfl⟩ := h.succeeds.mp hs
    rw [h.types_instantiate, List.forall_mem_map]
    exact fun sig hsig => isConcrete_instantiate (hcovered sig hsig) ht hm
  composes typeArgs methodArgs innerTypes innerMethods typeArgs' methodArgs' whole whole' ht hm hs := by
    obtain ⟨hcovered, rfl⟩ := h.succeeds.mp hs
    obtain ⟨htypes, rfl⟩ := TypeSig.covered_of_substituted ht
    obtain ⟨hmethods, rfl⟩ := TypeSig.covered_of_substituted hm
    have hinner : ∀ sig ∈ types (instantiate typeArgs methodArgs whole), sig.Covered innerTypes innerMethods := by
      rw [h.types_instantiate, List.forall_mem_map]
      exact fun sig hsig => TypeSig.covered_instantiate (hcovered sig hsig) htypes hmethods
    -- the instances of the arguments are as many as the arguments, so they cover what these cover
    have hwhole : ∀ sig ∈ types whole, sig.Covered (typeArgs.map (·.instantiate innerTypes innerMethods))
        (methodArgs.map (·.instantiate innerTypes innerMethods)) := by
      intro sig hsig
      exact (hcovered sig hsig).of_length (by simp) (by simp)
    rw [h.succeeds.mpr ⟨hinner, rfl⟩, h.succeeds.mpr ⟨hwhole, rfl⟩]
    exact congrArg _ (h.twice fun sig hsig => TypeSig.instantiate_instantiate (hcovered sig hsig))

end Laws

theorem TypeSig.actsOnTypes : ActsOnTypes (fun sig => [sig])
    (fun typeArgs methodArgs sig => TypeSig.substitute typeArgs methodArgs sig) id TypeSig.instantiate where
  succeeds := by
    intro typeArgs methodArgs sig sig'
    rw [List.forall_mem_singleton]
    exact TypeSig.substitute_eq_ok
  error he := ⟨_, List.mem_singleton_self _, he⟩
  types_instantiate _ _ _ := rfl
  closes h := h _ (List.mem_singleton_self _)
  twice h := h _ (List.mem_singleton_self _)

theorem MethodSig.actsOnTypes : ActsOnTypes MethodSig.types MethodSig.substitute
    (fun sig => { sig with genericCount := 0 }) MethodSig.instantiate where
  succeeds := by
    intro typeArgs methodArgs sig sig'
    rw [types, List.forall_mem_cons, MethodSig.substitute_eq_ok]
    exact and_congr_left fun _ => ⟨fun h => ⟨h.returnType, h.params⟩, fun h => ⟨h.1, h.2⟩⟩
  error {typeArgs methodArgs sig error} he := by
    rw [MethodSig.substitute, TypeSig.substituteAll_eq_mapM] at he
    rcases bind_eq_error.mp he with hreturn | ⟨returnType, -, he⟩
    · exact ⟨_, List.mem_cons_self, hreturn⟩
    · rcases bind_eq_error.mp he with hparams | ⟨params, -, he⟩
      · obtain ⟨param, hm, hparam⟩ := exists_of_mapM_eq_error hparams
        exact ⟨param, List.mem_cons_of_mem _ hm, hparam⟩
      · cases he
  types_instantiate _ _ _ := rfl
  closes {typeArgs methodArgs sig} h := by
    rw [types, List.forall_mem_cons] at h
    rw [MethodSig.instantiate, h.1, (List.map_congr_left h.2).trans (List.map_id' _)]
  twice h := by
    rw [types, List.forall_mem_cons] at h
    simp only [MethodSig.instantiate, List.map_map]
    rw [h.1]
    exact congrArg _ (List.map_congr_left h.2)

/-- The laws hold of types and of method signatures, where each type is substituted on its own, the receiver
stays and the generic parameters go. -/
theorem substitution_laws :
    SubstitutionLaws (fun sig => [sig])
      (fun typeArgs methodArgs sig => TypeSig.substitute typeArgs methodArgs sig) id ∧
    SubstitutionLaws MethodSig.types MethodSig.substitute (fun sig => { sig with genericCount := 0 }) ∧
    ∀ typeArgs methodArgs (sig sig' : MethodSig), sig.substitute typeArgs methodArgs = .ok sig' →
      sig'.hasThis = sig.hasThis ∧ sig'.params.length = sig.params.length ∧ sig'.genericCount = 0 ∧
        List.Forall₂ (fun type type' => type.substitute typeArgs methodArgs = .ok type') sig.types sig'.types := by
  refine ⟨TypeSig.actsOnTypes.laws, MethodSig.actsOnTypes.laws, fun typeArgs methodArgs sig sig' h => ?_⟩
  obtain ⟨hcovered, rfl⟩ := MethodSig.actsOnTypes.succeeds.mp h
  refine ⟨rfl, List.length_map _, rfl, ?_⟩
  rw [MethodSig.actsOnTypes.types_instantiate, List.forall₂_map_right_iff, List.forall₂_same]
  exact fun type hm => TypeSig.substitute_eq_ok.mpr ⟨hcovered type hm, rfl⟩

/-- An inner vector of a method's parameter is filled in through a parameter of the type, or at once. -/
theorem substitution_laws_nested :
    let whole : MethodSig := {
      hasThis := true
      genericCount := 1
      returnType := .methodParam 0
      params := [.primitive .i4, .generic (.class ⟨0x01000003⟩) [.vector (.typeParam 0)]] }
    let outer : MethodSig := {
      hasThis := true
      returnType := .typeParam 0
      params := [.primitive .i4, .generic (.class ⟨0x01000003⟩) [.vector (.byRef (.typeParam 0))]] }
    whole.substitute [.byRef (.typeParam 0)] [.typeParam 0] = .ok outer ∧
      outer.params.length = whole.params.length ∧
      outer.substitute [.primitive .string] [] =
        whole.substitute [.byRef (.primitive .string)] [.primitive .string] ∧
      ∃ error, outer.substitute [] [.primitive .string] = .error error := by
  obtain ⟨-, hlaws, hshape⟩ := substitution_laws
  refine ⟨rfl, (hshape [.byRef (.typeParam 0)] [.typeParam 0] _ _ rfl).2.1, ?_, ?_⟩
  · exact hlaws.composes [.byRef (.typeParam 0)] [.typeParam 0] [.primitive .string] [] _ _ _ _
      (.cons rfl .nil) (.cons rfl .nil) rfl
  · exact (hlaws.fails [] [.primitive .string] _).mpr
      ⟨.typeParam 0, List.mem_cons_self, _, .typeParam .self rfl⟩

end HotPatch
