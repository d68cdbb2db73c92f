import HotPatch.Proofs.Image.ReturningSymbols
import HotPatch.Proofs.Module.OwnedLists
import HotPatch.Proofs.Patch.ClassifyFrame

/-!
# What neutralization does

The initializers are chosen before the first body is changed. Each type lists
exactly its own methods, in table order, so no initializer is chosen twice and
each gets one return. A return can always be put in front of a body: only the
choice can fail, and then nothing was changed.
-/

namespace HotPatch

open Code

section Moving

/-- Where an instruction stands behind a new first one. Indices are 64 bits wide. -/
def nextIndex (position : Nat) : Nat := (position + 1) % indexLimit

/-- Where a region ends behind a new first instruction. What ended before the first instruction still does. -/
def nextEnd (position : Nat) : Nat := if position = 0 then 0 else nextIndex position

/-- The region with all its bounds behind a new first instruction. -/
def Handler.moved (handler : Handler) : Handler :=
  { handler with
    tryStart := nextIndex handler.tryStart
    tryEnd := nextEnd handler.tryEnd
    handlerStart := nextIndex handler.handlerStart
    handlerEnd := nextEnd handler.handlerEnd
    filterStart := handler.filterStart.map nextIndex }

/-- The body with a return in front and every reference moved along. -/
def Body.behindReturn (body : Body) : Body :=
  { body with
    instructions := returnInstruction :: body.instructions.map (·.retarget nextIndex)
    handlers := body.handlers.map (·.moved) }

theorem shiftStart_zero_eq (position : Nat) : shiftStart 0 position = nextIndex position :=
  if_pos (Nat.zero_le position)

theorem shiftEnd_zero_eq (position : Nat) : shiftEnd 0 position = nextEnd position := by
  unfold shiftEnd nextEnd
  by_cases h : position = 0
  · simp [h]
  · rw [if_pos (Nat.pos_of_ne_zero h), if_neg h, nextIndex]

theorem Code.Instruction.shift_zero_eq (instruction : Instruction) :
    instruction.shift 0 = instruction.retarget nextIndex := by
  unfold shift retarget
  cases instruction.operand <;> simp [shiftStart_zero_eq]

theorem Handler.shift_zero_eq (handler : Handler) : handler.shift 0 = handler.moved := by
  have hstart : shiftStart 0 = nextIndex := funext shiftStart_zero_eq
  simp [shift, moved, hstart, shiftEnd_zero_eq]

theorem Body.returning_eq (body : Body) : body.returning = body.behindReturn := by
  simp [returning, behindReturn, Instruction.shift_zero_eq, Handler.shift_zero_eq]

end Moving

variable {config : Config} {added : List String} {touched : TokenSet} {module after : Module} {owner token : Token}

/-- A name that keeps the initializer of its type. -/
def Exempt (config : Config) (added : List String) (name : String) : Prop :=
  config.closureMarker.toList <:+: name.toList ∨ name ∈ added

theorem exemption?_eq_none {name : String} : exemption? config added name = none ↔ ¬Exempt config added name := by
  unfold exemption? Exempt
  split_ifs with hm ha
  · simp [occursIn_iff.mp hm]
  · simpa using fun _ => List.contains_iff_mem.mp ha
  · rw [occursIn_iff] at hm
    simp [hm, mt List.contains_iff_mem.mpr ha]

/-- A listed type has a name, and is a definition of the module unless the name exempts it. -/
def Resolves (config : Config) (added : List String) (module : Module) (owner : Token) : Prop :=
  ∃ name, module.fullName owner = .ok name ∧ (Exempt config added name ∨ (module.typeDef? owner).isSome)

/-- A static initializer that has code, of a listed type that is not exempt. -/
structure RunsAgain (config : Config) (added : List String) (touched : TokenSet) (module : Module)
    (row : MethodDef) : Prop where
  name : row.name = MethodDef.initializerName
  static : row.isStatic
  code : ∃ body, row.body = some body ∧ body.instructions ≠ []
  listed : row.owner ∈ touched
  kept : ∃ name, module.fullName row.owner = .ok name ∧ ¬Exempt config added name

theorem hasBody_iff {row : MethodDef} :
    row.hasBody ↔ ∃ body, row.body = some body ∧ body.instructions ≠ [] := by
  simp [MethodDef.hasBody, Option.any_eq_true]

section Choice

/-- The initializers that are chosen from one type. -/
def chosen (config : Config) (added : List String) (module : Module) (owner : Token) : List Token :=
  (initializersOf config added module owner).toOption.getD []

/-- Choosing succeeds for types that resolve. -/
theorem initializersOf_eq_ok {list : List Token} : initializersOf config added module owner = .ok list ↔
    Resolves config added module owner ∧ list = chosen config added module owner := by
  have hname : (∃ list, initializersOf config added module owner = .ok list) ↔
      Resolves config added module owner := by
    unfold initializersOf Resolves
    simp only [bind_eq_ok]
    rw [exists_comm]
    refine exists_congr fun name => ?_
    rw [exists_and_left]
    refine and_congr_right fun _ => ?_
    rcases he : exemption? config added name with - | exemption
    · rw [exemption?_eq_none] at he
      simp [he, bind_eq_ok, require_eq_ok, Option.isSome_iff_exists, pure, Except.pure]
    · have hexempt : Exempt config added name := by
        by_contra hn
        rw [exemption?_eq_none.mpr hn] at he
        cases he
      simp [hexempt, pure, Except.pure]
  rw [← hname, chosen]
  constructor
  · intro h
    exact ⟨⟨list, h⟩, by rw [h]; rfl⟩
  · rintro ⟨⟨other, ho⟩, rfl⟩
    rw [ho]
    rfl

/-- The choice from all types is the choices put together, and fails if one of them does. -/
theorem mapM_initializersOf {lists : List (List Token)} :
    touched.mapM (initializersOf config added module) = .ok lists ↔
      (∀ owner ∈ touched, Resolves config added module owner) ∧
        lists = touched.map (chosen config added module) :=
  mapM_eq_ok_map fun _ _ _ => initializersOf_eq_ok

theorem chosen_eq {name : String} {type : TypeDef} (hn : module.fullName owner = .ok name)
    (he : ¬Exempt config added name) (ht : module.typeDef? owner = some type) :
    chosen config added module owner = runningInitializers module type := by
  have hi : initializersOf config added module owner = .ok (runningInitializers module type) := by
    refine bind_eq_ok.mpr ⟨name, hn, ?_⟩
    rw [exemption?_eq_none.mpr he]
    exact bind_eq_ok.mpr ⟨type, require_eq_ok.mpr ht, rfl⟩
  exact (initializersOf_eq_ok.mp hi).2.symm

/-- A type lists the methods that name it as their owner. -/
theorem mem_methods_iff_owner (hl : module.MethodsListed) (hfit : module.RowsFit) {type : TypeDef}
    (ht : module.typeDef? owner = some type) :
    token ∈ type.methods ↔ ∃ row, module.method? token = some row ∧ row.owner = owner := by
  have hlist : type.methods = ownedBy .methodDef module.methodOwners owner :=
    hl.listed owner type.methods (by rw [Module.methodList?, ht, Option.map_some])
  rw [hlist]
  exact mem_ownedBy_rows (hfit .methodDef)

theorem methods_increasing (hl : module.MethodsListed) (hfit : module.RowsFit) {type : TypeDef}
    (ht : module.typeDef? owner = some type) : type.methods.Pairwise fun a b => a.value < b.value := by
  have hlist : type.methods = ownedBy .methodDef module.methodOwners owner :=
    hl.listed owner type.methods (by rw [Module.methodList?, ht, Option.map_some])
  rw [hlist]
  apply ownedBy_increasing
  rw [Module.length_methodOwners]
  exact hfit .methodDef

theorem typeDef?_isSome_of_owner (hl : module.MethodsListed) {row : MethodDef}
    (hr : module.method? token = some row) : (module.typeDef? row.owner).isSome := by
  have howner : row.owner ∈ module.methodOwners := by
    obtain ⟨-, -, hrow⟩ := rowAt?_eq_some hr
    exact List.mem_map_of_mem (by simpa using Array.mem_of_getElem? hrow)
  simpa [Module.methodList?] using hl.owned row.owner howner

theorem mem_chosen (hl : module.MethodsListed) (hfit : module.RowsFit) (howner : owner ∈ touched) :
    token ∈ chosen config added module owner ↔
      ∃ row, module.method? token = some row ∧ row.owner = owner ∧
        RunsAgain config added touched module row := by
  constructor
  · intro hm
    -- something is chosen, so the name is known and not exempt, and the type is there
    rcases hi : initializersOf config added module owner with error | list
    · simp [chosen, hi, Except.toOption] at hm
    · obtain rfl : chosen config added module owner = list := (initializersOf_eq_ok.mp hi).2.symm
      obtain ⟨name, hn, hlist⟩ := bind_eq_ok.mp hi
      rcases he : exemption? config added name with - | exemption <;> rw [he] at hlist
      · obtain ⟨type, ht, hlist⟩ := bind_eq_ok.mp hlist
        rw [require_eq_ok] at ht
        have hrunning := Except.ok.inj hlist
        rw [← hrunning] at hm
        obtain ⟨hlisted, row, hr, hs, hb⟩ := mem_runningInitializers hm
        obtain ⟨row', hr', ho⟩ := (mem_methods_iff_owner hl hfit ht).mp hlisted
        obtain rfl : row = row' := Option.some.inj (hr.symm.trans hr')
        rw [MethodDef.isStaticInitializer, Bool.and_eq_true, beq_iff_eq] at hs
        subst ho
        exact ⟨row, hr, rfl, hs.1, hs.2, hasBody_iff.mp hb, howner, name, hn, exemption?_eq_none.mp he⟩
      · rw [← Except.ok.inj hlist] at hm
        cases hm
  · rintro ⟨row, hr, rfl, hruns⟩
    obtain ⟨name, hn, he⟩ := hruns.kept
    obtain ⟨type, ht⟩ := Option.isSome_iff_exists.mp (typeDef?_isSome_of_owner hl hr)
    rw [chosen_eq hn he ht, runningInitializers, List.mem_filter]
    refine ⟨(mem_methods_iff_owner hl hfit ht).mpr ⟨row, hr, rfl⟩, ?_⟩
    simp [hr, MethodDef.isStaticInitializer, hruns.name, hruns.static, hasBody_iff.mpr hruns.code]

theorem chosen_increasing (hl : module.MethodsListed) (hfit : module.RowsFit) :
    (chosen config added module owner).Pairwise fun a b => a.value < b.value := by
  rcases hi : initializersOf config added module owner with error | list
  · simp [chosen, hi, Except.toOption]
  · rw [← (initializersOf_eq_ok.mp hi).2]
    obtain ⟨name, -, hlist⟩ := bind_eq_ok.mp hi
    rcases he : exemption? config added name with - | exemption <;> rw [he] at hlist
    · obtain ⟨type, ht, hlist⟩ := bind_eq_ok.mp hlist
      rw [require_eq_ok] at ht
      rw [← Except.ok.inj hlist]
      exact (methods_increasing hl hfit ht).filter _
    · rw [← Except.ok.inj hlist]
      exact .nil

/-- Methods are ordered by their types, and within a type as in the table. -/
def Precedes (module : Module) (a b : Token) : Prop :=
  ∃ rowA rowB, module.method? a = some rowA ∧ module.method? b = some rowB ∧
    (rowA.owner.value < rowB.owner.value ∨ rowA.owner = rowB.owner ∧ a.value < b.value)

theorem Precedes.ne {a b : Token} (h : Precedes module a b) : a ≠ b := by
  rintro rfl
  obtain ⟨rowA, rowB, ha, hb, h⟩ := h
  obtain rfl : rowA = rowB := Option.some.inj (ha.symm.trans hb)
  rcases h with h | ⟨-, h⟩
  · exact UInt32.lt_irrefl _ h
  · exact UInt32.lt_irrefl _ h

theorem flatMap_chosen_ordered (hl : module.MethodsListed) (hfit : module.RowsFit)
    (hs : touched.Pairwise fun a b => a.value < b.value) :
    (touched.flatMap (chosen config added module)).Pairwise (Precedes module) := by
  have hrow : ∀ owner ∈ touched, ∀ token ∈ chosen config added module owner,
      ∃ row, module.method? token = some row ∧ row.owner = owner := by
    intro owner ho token hm
    obtain ⟨row, hr, howner, -⟩ := (mem_chosen hl hfit ho).mp hm
    exact ⟨row, hr, howner⟩
  rw [List.pairwise_flatMap]
  constructor
  · intro owner ho
    refine (chosen_increasing hl hfit).imp_of_mem fun {a b} ha hb hlt => ?_
    obtain ⟨rowA, hra, hoa⟩ := hrow owner ho a ha
    obtain ⟨rowB, hrb, hob⟩ := hrow owner ho b hb
    exact ⟨rowA, rowB, hra, hrb, .inr ⟨hoa.trans hob.symm, hlt⟩⟩
  · refine hs.imp_of_mem fun {first second} hf hsecond hlt a ha b hb => ?_
    obtain ⟨rowA, hra, rfl⟩ := hrow first hf a ha
    obtain ⟨rowB, hrb, rfl⟩ := hrow second hsecond b hb
    exact ⟨rowA, rowB, hra, hrb, .inl hlt⟩

end Choice

section Insertion

/-- Puts a return in front of the body of a method. -/
def insertReturn (module : Module) (token : Token) : Result Module :=
  module.insertInstruction token 0 returnInstruction

/-- The listed methods have a return in front of their bodies, and nothing else has changed. -/
structure ReturnsAt (tokens : List Token) (module after : Module) : Prop where
  same : after = { module with methods := after.methods }
  count : after.methods.size = module.methods.size
  method : ∀ token, after.method? token = (module.method? token).map fun row =>
    if token ∈ tokens then { row with body := row.body.map Body.behindReturn } else row

theorem insertReturn_ok {row : MethodDef} {body : Body} (hr : module.method? token = some row)
    (hb : row.body = some body) : ∃ after, insertReturn module token = .ok after ∧ ReturnsAt [token] module after := by
  obtain ⟨after, ha⟩ : ∃ after,
      module.modifyMethod? token (fun row => { row with body := some body.returning }) = some after :=
    ⟨_, by rw [Module.modifyMethod?, hr, Option.map_some]⟩
  refine ⟨after, (Module.insertInstruction_eq_ok hr hb).mpr ⟨_, body.insert_return, ha⟩, ?_⟩
  obtain ⟨-, hsame, hcount, hmethod⟩ := Module.modifyMethod?_spec ha
  refine ⟨hsame, hcount, fun other => ?_⟩
  rw [hmethod]
  by_cases he : token = other
  · subst he
    simp [hr, hb, Body.returning_eq]
  · simp [he, Ne.symm he]

theorem ReturnsAt.cons {tokens : List Token} {middle : Module} (hn : token ∉ tokens)
    (h : ReturnsAt [token] module middle) (h' : ReturnsAt tokens middle after) :
    ReturnsAt (token :: tokens) module after where
  same := by
    have hafter := h'.same
    rw [h.same] at hafter
    exact hafter
  count := h'.count.trans h.count
  method other := by
    rw [h'.method, h.method, Option.map_map]
    congr 1
    funext row
    by_cases he : other = token
    · subst he
      simp [hn]
    · simp [he]

/-- Every listed method gets its return, if none is listed twice. -/
theorem foldlM_insertReturn {tokens : List Token} (hn : tokens.Nodup)
    (hbody : ∀ token ∈ tokens, ∃ row body, module.method? token = some row ∧ row.body = some body) :
    ∃ after, tokens.foldlM insertReturn module = .ok after ∧ ReturnsAt tokens module after := by
  induction tokens generalizing module with
  | nil => exact ⟨module, rfl, rfl, rfl, fun token => by simp⟩
  | cons token tokens ih =>
    rw [List.nodup_cons] at hn
    obtain ⟨row, body, hr, hb⟩ := hbody token List.mem_cons_self
    obtain ⟨middle, hm, hfirst⟩ := insertReturn_ok hr hb
    have hrest : ∀ other ∈ tokens, ∃ row body, middle.method? other = some row ∧ row.body = some body := by
      intro other ho
      obtain ⟨row, body, hr, hb⟩ := hbody other (List.mem_cons_of_mem _ ho)
      have hne : other ∉ [token] := by
        rintro h
        rw [List.mem_singleton.mp h] at ho
        exact hn.1 ho
      exact ⟨row, body, by rw [hfirst.method, hr, Option.map_some, if_neg hne], hb⟩
    obtain ⟨after, ha, hafter⟩ := ih hn.2 hrest
    refine ⟨after, ?_, hfirst.cons hn.1 hafter⟩
    rw [List.foldlM_cons]
    exact bind_eq_ok.mpr ⟨middle, hm, ha⟩

end Insertion

section InPlace

/-- The neutralization as a change in place, step by step: where a step fails, the module stays as it is at
that point. -/
def neutralizeInPlace (config : Config) (touched : TokenSet) (added : List String) : Edit (List Token) := do
  let initializers ← Edit.inspect fun module =>
    return (← touched.mapM (initializersOf config added module)).flatten
  initializers.forM fun token => Edit.attempt fun module => (insertReturn module token).map ((), ·)
  return initializers

theorem forM_insertReturn {tokens : List Token} (h : tokens.foldlM insertReturn module = .ok after) :
    (tokens.forM fun token => Edit.attempt fun module => (insertReturn module token).map ((), ·)) module =
      (.ok (), after) := by
  induction tokens generalizing module with
  | nil =>
    cases h
    rfl
  | cons token tokens ih =>
    rw [List.foldlM_cons] at h
    obtain ⟨middle, hm, h⟩ := bind_eq_ok.mp h
    rw [List.forM_eq_forM, List.forM_cons]
    refine run_bind_eq_ok.mpr ⟨(), middle, Edit.attempt_eq_ok.mpr ?_, ih h⟩
    rw [hm]
    rfl

/-- Where the choice fails, nothing has happened yet. -/
theorem neutralize_error {error : Error} (h : touched.mapM (initializersOf config added module) = .error error) :
    neutralize config touched added module = .error error ∧
      neutralizeInPlace config touched added module = (.error error, module) := by
  constructor
  · rw [neutralize, h]
    rfl
  · rw [neutralizeInPlace, bind_apply, Edit.inspect, h]
    rfl

theorem neutralize_ok {lists : List (List Token)}
    (h : touched.mapM (initializersOf config added module) = .ok lists)
    (hreturns : lists.flatten.foldlM insertReturn module = .ok after) :
    neutralize config touched added module = .ok (lists.flatten, after) ∧
      neutralizeInPlace config touched added module = (.ok lists.flatten, after) := by
  constructor
  · exact bind_eq_ok.mpr ⟨lists, h, bind_eq_ok.mpr ⟨after, hreturns, rfl⟩⟩
  · refine Edit.inspect_bind_eq_ok.mpr ⟨lists.flatten, bind_eq_ok.mpr ⟨lists, h, rfl⟩, ?_⟩
    exact run_bind_eq_ok.mpr ⟨(), after, forM_insertReturn hreturns, rfl⟩

end InPlace

/-- Neutralization fails exactly if a listed type does not resolve, and then leaves the module alone. Otherwise
the initializers that would run again are listed in order and get a return in front, and nothing else changes. -/
theorem neutralize_exact (hbuilt : module.Built) (hfit : module.RowsFit)
    (hs : touched.Pairwise fun a b => a.value < b.value) :
    ((∃ owner ∈ touched, ¬Resolves config added module owner) →
      ∃ error, neutralize config touched added module = .error error ∧
        neutralizeInPlace config touched added module = (.error error, module)) ∧
    ((∀ owner ∈ touched, Resolves config added module owner) →
      ∃ initializers after, neutralize config touched added module = .ok (initializers, after) ∧
        neutralizeInPlace config touched added module = (.ok initializers, after) ∧
        (∀ token, token ∈ initializers ↔
          ∃ row, module.method? token = some row ∧ RunsAgain config added touched module row) ∧
        initializers.Pairwise (Precedes module) ∧ initializers.Nodup ∧
        ReturnsAt initializers module after) := by
  constructor
  · rintro ⟨owner, ho, hn⟩
    rcases h : touched.mapM (initializersOf config added module) with error | lists
    · exact ⟨error, neutralize_error h⟩
    · exact absurd ((mapM_initializersOf.mp h).1 owner ho) hn
  · intro hall
    have hlists := mapM_initializersOf.mpr ⟨hall, rfl⟩
    have hl := hbuilt.holds Module.methodsListed_invariant hfit
    have hordered : (touched.flatMap (chosen config added module)).Pairwise (Precedes module) :=
      flatMap_chosen_ordered hl hfit hs
    have hnodup := hordered.imp Precedes.ne
    have hmem : ∀ token, token ∈ (touched.map (chosen config added module)).flatten ↔
        ∃ row, module.method? token = some row ∧ RunsAgain config added touched module row := by
      intro token
      rw [← List.flatMap_def, List.mem_flatMap]
      constructor
      · rintro ⟨owner, ho, hm⟩
        obtain ⟨row, hr, -, hruns⟩ := (mem_chosen hl hfit ho).mp hm
        exact ⟨row, hr, hruns⟩
      · rintro ⟨row, hr, hruns⟩
        exact ⟨row.owner, hruns.listed, (mem_chosen hl hfit hruns.listed).mpr ⟨row, hr, rfl, hruns⟩⟩
    rw [List.flatMap_def] at hordered hnodup
    have hbody : ∀ token ∈ (touched.map (chosen config added module)).flatten,
        ∃ row body, module.method? token = some row ∧ row.body = some body := by
      intro token hm
      obtain ⟨row, hr, hruns⟩ := (hmem token).mp hm
      obtain ⟨body, hb, -⟩ := hruns.code
      exact ⟨row, body, hr, hb⟩
    obtain ⟨after, hreturns, hafter⟩ := foldlM_insertReturn hnodup hbody
    obtain ⟨hpure, hplace⟩ := neutralize_ok hlists hreturns
    exact ⟨_, after, hpure, hplace, hmem, hordered, hnodup, hafter⟩

/-!
Three types with initializers, whose methods stand in the table the other way
round. The second type was added, so its initializer is kept.
-/

def initializerWith (owner : Token) (body : Body) : MethodDef where
  owner
  name := MethodDef.initializerName
  flags := .typeInitializer
  body := some body

def runningBody : Body where
  instructions := [{ opcode := .nop }, { opcode := .ret }]

def threeTypes : TokenSet := [.ofRow .typeDef 1, .ofRow .typeDef 2, .ofRow .typeDef 3]

def threeTypesModule : Module :=
  (((((Module.withType { name := "Game" } { name := ⟨"", "Box"⟩ }).withType { name := ⟨"", "Added"⟩ }).withType
    { name := ⟨"", "Grid"⟩ }).withMethod (initializerWith (.ofRow .typeDef 3) runningBody)).withMethod
    (initializerWith (.ofRow .typeDef 2) runningBody)).withMethod (initializerWith (.ofRow .typeDef 1) runningBody)

theorem threeTypesModule_built : threeTypesModule.Built :=
  ((((((Module.Built.new "Game" _).withType _).withType _).withType _).withMethod _).withMethod _).withMethod _

theorem neutralize_exact_threeTypes :
    ∃ after, neutralizeInPlace {} threeTypes ["Added"] threeTypesModule =
        (.ok [.ofRow .methodDef 3, .ofRow .methodDef 1], after) ∧
      ReturnsAt [.ofRow .methodDef 3, .ofRow .methodDef 1] threeTypesModule after := by
  have hfit : threeTypesModule.RowsFit := by
    intro table
    cases table <;> decide +kernel
  have hresolves : ∀ owner ∈ threeTypes, Resolves {} ["Added"] threeTypesModule owner := by
    intro owner ho
    simp only [threeTypes, List.mem_cons, List.not_mem_nil, or_false] at ho
    obtain rfl | rfl | rfl := ho
    · exact ⟨"Box", rfl, .inr (by decide +kernel)⟩
    · exact ⟨"Added", rfl, .inl (.inr (by decide))⟩
    · exact ⟨"Grid", rfl, .inr (by decide +kernel)⟩
  obtain ⟨initializers, after, -, hplace, -, -, -, hreturns⟩ :=
    (neutralize_exact threeTypesModule_built hfit (by decide)).2 hresolves
  have hlist : (neutralizeInPlace {} threeTypes ["Added"] threeTypesModule).1.toOption =
      some [.ofRow .methodDef 3, .ofRow .methodDef 1] := by decide +kernel
  rw [hplace, Except.toOption, Option.some.injEq] at hlist
  subst hlist
  exact ⟨after, hplace, hreturns⟩

/-!
A type whose initializer has an empty protected region in front of its code.
-/

def emptyRegionBody : Body where
  instructions := [{ opcode := .nop }, { opcode := .brS, operand := .target 0 }]
  handlers := [{ flags := .finallyBlock, tryStart := 0, tryEnd := 0, handlerStart := 0, handlerEnd := 1 }]

def emptyRegionModule : Module :=
  (Module.withType { name := "Game" } { name := ⟨"", "Box"⟩ }).withMethod
    (initializerWith (.ofRow .typeDef 1) emptyRegionBody)

/-- The protected instructions of the regions of a method. -/
def triedRegions (module : Module) (token : Token) : Option (List (Nat × Nat)) :=
  (module.method? token).bind (·.body) |>.map fun body => body.handlers.map fun handler =>
    (handler.tryStart, handler.tryEnd)

/-- An end bound at zero is not moved with the others. -/
theorem neutralize_keeps_end_at_zero :
    (neutralizeInPlace {} [.ofRow .typeDef 1] [] emptyRegionModule).1.toOption = some [.ofRow .methodDef 1] ∧
      triedRegions emptyRegionModule (.ofRow .methodDef 1) = some [(0, 0)] ∧
      triedRegions (neutralizeInPlace {} [.ofRow .typeDef 1] [] emptyRegionModule).2 (.ofRow .methodDef 1) =
        some [(0 + 1, 0)] := by
  refine ⟨?_, ?_, ?_⟩ <;> decide +kernel

end HotPatch
