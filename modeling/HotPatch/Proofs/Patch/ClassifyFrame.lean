import HotPatch.Patch.Classify
import HotPatch.Proofs.Module.Built
import HotPatch.Proofs.Results

/-!
# What classification and neutralization leave alone

Classification leaves the modules to the classifier. Neutralization replaces the
bodies of running static initializers of touched types, and nothing else.
-/

namespace HotPatch

/-- Two pairs hold the same modules. -/
def ModulePair.SameModules (a b : ModulePair) : Prop := a.base = b.base ∧ a.patch = b.patch

/-- A classifier that does not modify the modules, if the classification of called methods does not. -/
def Classifier.KeepsModules (classifier : Classifier) : Prop :=
  ∀ method below, (∀ callee state, (below callee state).2.pair.SameModules state.pair) →
    ∀ state, ((classifier method).perform below state).2.pair.SameModules state.pair

namespace ModulePair.SameModules

variable {a b c : ModulePair}

theorem refl (a : ModulePair) : a.SameModules a := ⟨rfl, rfl⟩

theorem trans (h : a.SameModules b) (h' : b.SameModules c) : a.SameModules c :=
  ⟨h.1.trans h'.1, h.2.trans h'.2⟩

end ModulePair.SameModules

section Classification

variable {classifier : Classifier} (hk : classifier.KeepsModules)

include hk

theorem classifyMethod_keeps (remaining depth : Nat) (method : Token) (state : ClassifyState) :
    (classifyMethod classifier remaining depth method state).2.pair.SameModules state.pair := by
  induction remaining generalizing depth method state with
  | zero =>
    rw [classifyMethod]
    refine hk method _ (fun callee state => ?_) _
    split_ifs
    · exact .refl _
    · exact .refl _
  | succ remaining ih =>
    rw [classifyMethod]
    refine hk method _ (fun callee state => ?_) _
    split_ifs
    · exact .refl _
    · exact ih (depth + 1) callee state

theorem classifyAll_keeps (maxDepth : Nat) (methods : List Token) (state : ClassifyState) :
    (classifyAll classifier maxDepth methods state).2.pair.SameModules state.pair := by
  induction methods generalizing state with
  | nil => exact .refl _
  | cons method methods ih =>
    rw [classifyAll]
    split_ifs
    · exact ih state
    · have hm := classifyMethod_keeps hk maxDepth 0 method state
      split
      · rename_i next hc
        rw [hc] at hm
        exact (ih next).trans hm
      · rename_i error next hc
        rw [hc] at hm
        exact hm

end Classification

section Neutralization

variable {config : Config} {added : List String} {module module' : Module}

/-- What makes neutralization replace the body of a method. -/
def Initializes (config : Config) (added : List String) (touched : TokenSet) (module : Module)
    (method : Token) : Prop :=
  ∃ row name, module.method? method = some row ∧ row.isStaticInitializer ∧ row.hasBody ∧
    row.owner ∈ touched ∧ module.fullName row.owner = .ok name ∧ exemption? config added name = none

theorem insertInstruction_extension {token : Token} {index : Nat} {instruction : Code.Instruction}
    (container : Option Token) (h : module.insertInstruction token index instruction = .ok module') :
    Module.Extension container [] (· = token) module module' := by
  obtain ⟨method, hm, h⟩ := bind_eq_ok.mp h
  rw [require_eq_ok] at hm
  rcases hb : method.body with - | body <;> rw [hb] at h
  · cases h
    exact (Module.Extension.refl container _).mono fun _ hf => hf.elim
  · obtain ⟨body', -, h⟩ := bind_eq_ok.mp h
    rcases hs : module.modifyMethod? token fun row => { row with body := some body' } with - | next
    · rw [hs] at h
      cases h
      exact (Module.Extension.refl container _).mono fun _ hf => hf.elim
    · rw [hs] at h
      cases h
      exact Module.setBody_extension container hs

theorem insertInstruction_attributes {token : Token} {index : Nat} {instruction : Code.Instruction}
    (h : module.insertInstruction token index instruction = .ok module') :
    module'.attributes = module.attributes := by
  obtain ⟨method, -, h⟩ := bind_eq_ok.mp h
  rcases hb : method.body with - | body <;> rw [hb] at h
  · cases h
    rfl
  · obtain ⟨body', -, h⟩ := bind_eq_ok.mp h
    rcases hs : module.modifyMethod? token fun row => { row with body := some body' } with - | changed
    · rw [hs] at h
      cases h
      rfl
    · rw [hs] at h
      cases h
      rw [Option.getD_some, (Module.modifyMethod?_spec hs).2.1]

theorem foldlM_insert_extension {tokens : List Token} {instruction : Code.Instruction}
    (container : Option Token)
    (h : tokens.foldlM (fun module token => module.insertInstruction token 0 instruction) module =
      (.ok module' : Result Module)) :
    Module.Extension container [] (· ∈ tokens) module module' := by
  induction tokens generalizing module with
  | nil =>
    cases h
    exact (Module.Extension.refl container _).mono fun _ hf => hf.elim
  | cons token tokens ih =>
    rw [List.foldlM_cons] at h
    obtain ⟨next, hn, h⟩ := bind_eq_ok.mp h
    refine ((insertInstruction_extension container hn).trans (ih h)).mono ?_
    rintro other (rfl | ho)
    · simp
    · simp [ho]

theorem foldlM_insert_attributes {tokens : List Token} {instruction : Code.Instruction}
    (h : tokens.foldlM (fun module token => module.insertInstruction token 0 instruction) module =
      (.ok module' : Result Module)) : module'.attributes = module.attributes := by
  induction tokens generalizing module with
  | nil =>
    cases h
    rfl
  | cons token tokens ih =>
    rw [List.foldlM_cons] at h
    obtain ⟨changed, hc, h⟩ := bind_eq_ok.mp h
    rw [ih h, insertInstruction_attributes hc]

theorem mem_runningInitializers {type : TypeDef} {method : Token}
    (h : method ∈ runningInitializers module type) : method ∈ type.methods ∧
      ∃ row, module.method? method = some row ∧ row.isStaticInitializer ∧ row.hasBody := by
  obtain ⟨hm, hr⟩ := List.mem_filter.mp h
  obtain ⟨row, hrow, hs⟩ := (Option.any_eq_true _ _).mp hr
  rw [Bool.and_eq_true] at hs
  exact ⟨hm, row, hrow, hs.1, hs.2⟩

/-- The methods whose bodies neutralization replaces. -/
theorem neutralize_initializers {touched : TokenSet} {initializers : List Token}
    (hw : module.WellFormed)
    (h : neutralize config touched added module = .ok (initializers, module')) {method : Token}
    (hm : method ∈ initializers) : Initializes config added touched module method := by
  obtain ⟨lists, hl, h⟩ := bind_eq_ok.mp h
  obtain ⟨next, -, h⟩ := bind_eq_ok.mp h
  cases h
  obtain ⟨list, hlist, hm⟩ := List.mem_flatten.mp hm
  obtain ⟨owner, howner, hi⟩ := exists_of_mem_mapM hl hlist
  obtain ⟨name, hn, hi⟩ := bind_eq_ok.mp hi
  rcases he : exemption? config added name with - | exemption <;> rw [he] at hi
  · obtain ⟨type, ht, hi⟩ := bind_eq_ok.mp hi
    rw [require_eq_ok] at ht
    cases hi
    obtain ⟨hlisted, row, hr, hs, hb⟩ := mem_runningInitializers hm
    obtain ⟨row', hr', rfl⟩ := hw.listed owner type method ht hlisted
    rw [hr, Option.some.injEq] at hr'
    subst hr'
    exact ⟨row, name, hr, hs, hb, howner, hn, he⟩
  · cases hi
    cases hm

theorem neutralize_extension {touched : TokenSet} {initializers : List Token}
    (container : Option Token)
    (h : neutralize config touched added module = .ok (initializers, module')) :
    Module.Extension container [] (· ∈ initializers) module module' := by
  obtain ⟨lists, -, h⟩ := bind_eq_ok.mp h
  obtain ⟨next, hn, h⟩ := bind_eq_ok.mp h
  cases h
  exact foldlM_insert_extension container hn

theorem neutralize_attributes {touched : TokenSet} {initializers : List Token}
    (h : neutralize config touched added module = .ok (initializers, module')) :
    module'.attributes = module.attributes := by
  obtain ⟨lists, -, h⟩ := bind_eq_ok.mp h
  obtain ⟨changed, hn, h⟩ := bind_eq_ok.mp h
  cases h
  exact foldlM_insert_attributes hn

end Neutralization
end HotPatch
