import HotPatch.Proofs.Code.DepthCertificate
import Mathlib.Order.Lattice.Nat

/-!
# The depths that control can reach

A configuration is the index of an instruction with a depth of the stack before
it. Control enters a body at its first instruction, at its handlers and at its
filters, and goes on from each instruction to the next one or to its target. The
analysis answers exactly if all configurations that control can reach can be
executed and no instruction is reached with two depths, and its answer is the
greatest depth before or after an instruction that is reached.

The depths of configurations are natural numbers, and the analysis counts in 16
bits, so this holds of bodies in which no reachable instruction leaves a greater
depth. An answer that is no more than a few values below the limit tells by
itself that the body is one of them.
-/

namespace HotPatch.Code

/-- The instruction with an index passes control on to the next one, to its target, or to neither. -/
inductive LeadsTo (index : Nat) (instruction : Instruction) : Nat → Prop
  | next (flow : instruction.info.flow = .sequential ∨ instruction.info.flow = .call ∨
      instruction.info.flow = .conditionalBranch) : LeadsTo index instruction (index + 1)
  | target {target : Nat} (flow : instruction.info.flow = .conditionalBranch ∨
      instruction.info.flow = .unconditionalBranch ∨ instruction.info.flow = .leave)
      (branch : instruction.target? = some target) : LeadsTo index instruction target

theorem leadsTo_iff {index successor : Nat} {instruction : Instruction} :
    LeadsTo index instruction successor ↔ successor ∈ successors index instruction := by
  unfold successors
  constructor
  · intro h
    cases h with
    | next flow => rcases flow with hf | hf | hf <;> simp [hf]
    | target flow branch => rcases flow with hf | hf | hf <;> simp [hf, branch]
  · intro h
    cases hf : instruction.info.flow <;> simp only [hf, List.mem_append, List.mem_singleton,
      Option.mem_toList, List.not_mem_nil] at h
    case sequential | call =>
      subst h
      exact .next (by simp [hf])
    case conditionalBranch =>
      rcases h with h | rfl
      · exact .target (by simp [hf]) h
      · exact .next (by simp [hf])
    case unconditionalBranch | leave => exact .target (by simp [hf]) h

/-- If the effect of the instruction depends on a method, it names one with a known signature. -/
def Instruction.Resolves (signature : Token → Result MethodSig) (instruction : Instruction) : Prop :=
  instruction.info.pops = .call ∨ instruction.info.pops = .construct ∨ instruction.info.pushes = .call →
    ∃ token sig, instruction.token? = some token ∧ signature token = .ok sig

theorem exists_stackEffect_iff {signature : Token → Result MethodSig} {returnsValue : Bool} {depth : Nat}
    {instruction : Instruction} :
    (∃ effect, stackEffect signature returnsValue depth instruction = .ok effect) ↔
      instruction.Resolves signature := by
  unfold stackEffect Instruction.Resolves
  dsimp only
  by_cases hcall : instruction.info.pops = .call ∨ instruction.info.pops = .construct ∨
    instruction.info.pushes = .call
  · rw [if_pos hcall]
    cases instruction.token? with
    | none => simp [hcall, malformed]
    | some token => cases hs : signature token <;> simp [hcall, hs, Except.map]
  · rw [if_neg hcall]
    exact iff_of_true ⟨_, rfl⟩ fun h => absurd h hcall

variable (signature : Token → Result MethodSig) (returnsValue : Bool) (body : Body)

/-- The instruction with an index can be executed at a depth, and leaves another one. -/
structure Executes (index depth : Nat) (instruction : Instruction) (after : Nat) : Prop where
  found : body.instructions[index]? = some instruction
  effect : ∃ pops pushes, stackEffect signature returnsValue depth instruction = .ok (pops, pushes) ∧
    pops ≤ depth ∧ after = depth - pops + pushes

/-- Control can reach the instruction with an index at a depth. -/
inductive Reachable : Nat → Nat → Prop
  | start (nonempty : body.instructions ≠ []) : Reachable 0 0
  | handler {handler : Handler} (mem : handler ∈ body.handlers) :
      Reachable handler.handlerStart handler.entryDepth
  | filter {handler : Handler} {start : Nat} (mem : handler ∈ body.handlers)
      (filter : handler.filterStart = some start) : Reachable start 1
  | step {index depth after successor : Nat} {instruction : Instruction} (before : Reachable index depth)
      (run : Executes signature returnsValue body index depth instruction after)
      (leads : LeadsTo index instruction successor) : Reachable successor after

/-- A depth that stands before or after an instruction that is reached. -/
inductive Occurs : Nat → Prop
  | before {index depth : Nat} (reached : Reachable signature returnsValue body index depth) : Occurs depth
  | after {index depth after : Nat} {instruction : Instruction}
      (reached : Reachable signature returnsValue body index depth)
      (run : Executes signature returnsValue body index depth instruction after) : Occurs after

/-- Whatever is reached can be executed, and no instruction is reached with two depths. -/
structure Consistent : Prop where
  inside : ∀ index depth, Reachable signature returnsValue body index depth → index < body.instructions.length
  resolved : ∀ index depth instruction, Reachable signature returnsValue body index depth →
    body.instructions[index]? = some instruction → instruction.Resolves signature
  enough : ∀ index depth instruction pops pushes, Reachable signature returnsValue body index depth →
    body.instructions[index]? = some instruction →
    stackEffect signature returnsValue depth instruction = .ok (pops, pushes) → pops ≤ depth
  emptied : ∀ index depth instruction after, Reachable signature returnsValue body index depth →
    Executes signature returnsValue body index depth instruction after → instruction.info.flow = .return →
    after = 0
  agreed : ∀ index depth depth', Reachable signature returnsValue body index depth →
    Reachable signature returnsValue body index depth' → depth = depth'

/-- No instruction that is reached lifts the depth above what is counted. -/
def InRange : Prop :=
  ∀ index depth instruction after, Reachable signature returnsValue body index depth →
    Executes signature returnsValue body index depth instruction after → after < depthRange

variable {signature returnsValue body}

theorem Executes.unique {index depth after after' : Nat} {instruction instruction' : Instruction}
    (h : Executes signature returnsValue body index depth instruction after)
    (h' : Executes signature returnsValue body index depth instruction' after') :
    instruction = instruction' ∧ after = after' := by
  have hsame : instruction = instruction' := Option.some.inj (h.found.symm.trans h'.found)
  subst hsame
  exact ⟨rfl, unique_of_effect h.effect h'.effect⟩

section Certificates

variable {bound index depth after after' : Nat} {instruction : Instruction} {depths : Nat → Option Nat}

theorem Handler.entryDepth_le_one (handler : Handler) : handler.entryDepth ≤ 1 := by
  unfold Handler.entryDepth
  split_ifs <;> decide

/-- The depths with which control enters a body are counted as they are, and so is what is left. -/
theorem InRange.occurs_lt (hr : InRange signature returnsValue body)
    (h : Occurs signature returnsValue body depth) : depth < depthRange := by
  have hentered : ∀ entered ≤ 1, entered < depthRange := fun _ hle => hle.trans_lt (by decide)
  cases h with
  | after reached run => exact hr _ _ _ _ reached run
  | before reached =>
    cases reached with
    | start => exact hentered 0 (Nat.zero_le 1)
    | handler => exact hentered _ (Handler.entryDepth_le_one _)
    | filter => exact hentered 1 (Nat.le_refl 1)
    | step before run => exact hr _ _ _ _ before run

/-- Where nothing wraps around, the count is the depth. -/
theorem Executes.counted (run : Executes signature returnsValue body index depth instruction after)
    (hlt : after < depthRange) :
    ∃ pops pushes, stackEffect signature returnsValue depth instruction = .ok (pops, pushes) ∧
      pops ≤ depth ∧ after = depthAfter depth pops pushes := by
  obtain ⟨pops, pushes, he, hp, rfl⟩ := run.effect
  exact ⟨pops, pushes, he, hp, (depthAfter_of_lt hlt).symm⟩

theorem Executes.after_eq (run : Executes signature returnsValue body index depth instruction after)
    (hlt : after < depthRange) (hstep : Steps signature returnsValue bound depth instruction after') :
    after = after' :=
  unique_of_effect (run.counted hlt) hstep.effect

/-- A certificate tells the depth of everything that is reached, as long as nothing wraps around. -/
theorem Certificate.depth_of_reachable (hc : Certificate signature returnsValue body bound depths)
    (hr : ∀ index depth instruction after, Reachable signature returnsValue body index depth →
      depths index = some depth → Executes signature returnsValue body index depth instruction after →
      after < depthRange)
    (h : Reachable signature returnsValue body index depth) : depths index = some depth := by
  induction h with
  | start nonempty => exact hc.entered (0, 0) (by simp [entries, nonempty])
  | @handler handler mem =>
    apply hc.entered (handler.handlerStart, handler.entryDepth)
    exact List.mem_append_right _ (List.mem_flatMap.mpr ⟨handler, mem, List.mem_cons_self⟩)
  | @filter handler start mem filter =>
    apply hc.entered (start, 1)
    exact List.mem_append_right _ (List.mem_flatMap.mpr ⟨handler, mem, by simp [filter]⟩)
  | @step index depth after successor instruction before run leads ih =>
    obtain ⟨instruction', after', hi, hstep, hnext⟩ := hc.passes index depth ih
    obtain rfl : instruction = instruction' := Option.some.inj (run.found.symm.trans hi)
    rw [run.after_eq (hr _ _ _ _ before ih run) hstep]
    exact hnext successor (leadsTo_iff.mp leads)

theorem InRange.depth_of_reachable (hr : InRange signature returnsValue body)
    (hc : Certificate signature returnsValue body bound depths)
    (h : Reachable signature returnsValue body index depth) : depths index = some depth :=
  hc.depth_of_reachable (fun index depth instruction after reached _ => hr index depth instruction after reached) h

theorem Certificate.executes (hc : Certificate signature returnsValue body bound depths)
    (hr : InRange signature returnsValue body) (h : Reachable signature returnsValue body index depth) :
    ∃ instruction after, Executes signature returnsValue body index depth instruction after ∧
      Steps signature returnsValue bound depth instruction after := by
  obtain ⟨instruction, after, hi, hstep, -⟩ := hc.passes index depth (hr.depth_of_reachable hc h)
  obtain ⟨pops, pushes, he, hp, -⟩ := hstep.effect
  have hrun : Executes signature returnsValue body index depth instruction (depth - pops + pushes) :=
    ⟨hi, pops, pushes, he, hp, rfl⟩
  have hafter := hrun.after_eq (hr _ _ _ _ h hrun) hstep
  exact ⟨instruction, after, hafter ▸ hrun, hstep⟩

theorem Certificate.consistent (hc : Certificate signature returnsValue body bound depths)
    (hr : InRange signature returnsValue body) : Consistent signature returnsValue body where
  inside index depth h := by
    obtain ⟨instruction, after, run, -⟩ := hc.executes hr h
    exact (List.getElem?_eq_some_iff.mp run.found).1
  resolved index depth instruction h hi := by
    obtain ⟨instruction', after, run, hstep⟩ := hc.executes hr h
    have hsame : instruction' = instruction := Option.some.inj (run.found.symm.trans hi)
    obtain ⟨pops, pushes, he, -⟩ := hstep.effect
    rw [← hsame]
    exact exists_stackEffect_iff.mp ⟨(pops, pushes), he⟩
  enough index depth instruction pops pushes h hi he := by
    obtain ⟨instruction', after, run, hstep⟩ := hc.executes hr h
    have hsame : instruction' = instruction := Option.some.inj (run.found.symm.trans hi)
    subst hsame
    obtain ⟨pops', pushes', he', hp, -⟩ := hstep.effect
    simp_all
  emptied index depth instruction after h run hf := by
    obtain ⟨instruction', after', run', hstep⟩ := hc.executes hr h
    obtain ⟨rfl, rfl⟩ := run.unique run'
    exact hstep.returned hf
  agreed index depth depth' h h' := by
    have hd := hr.depth_of_reachable hc h
    rw [hr.depth_of_reachable hc h', Option.some.injEq] at hd
    exact hd.symm

theorem Certificate.occurs_le (hc : Certificate signature returnsValue body bound depths)
    (hr : InRange signature returnsValue body) (h : Occurs signature returnsValue body depth) : depth ≤ bound := by
  cases h with
  | before reached =>
    obtain ⟨instruction, after, -, hstep⟩ := hc.executes hr reached
    exact hstep.before_le
  | after reached run =>
    obtain ⟨instruction, after, run', hstep⟩ := hc.executes hr reached
    obtain ⟨-, rfl⟩ := run.unique run'
    exact hstep.after_le

open Classical in
/-- A depth with which an instruction is reached, if it is reached at all. -/
noncomputable def reachedDepth (signature : Token → Result MethodSig) (returnsValue : Bool) (body : Body)
    (index : Nat) : Option Nat :=
  if h : ∃ depth, Reachable signature returnsValue body index depth then some h.choose else none

namespace Consistent

theorem reachedDepth_eq_some (h : Consistent signature returnsValue body) :
    reachedDepth signature returnsValue body index = some depth ↔
      Reachable signature returnsValue body index depth := by
  unfold reachedDepth
  split_ifs with hr
  · have hchosen := hr.choose_spec
    rw [Option.some.injEq]
    constructor
    · rintro rfl
      exact hchosen
    · exact h.agreed index _ depth hchosen
  · simp only [false_iff]
    exact fun reached => hr ⟨depth, reached⟩

/-- What is reached can be executed. -/
theorem executes (h : Consistent signature returnsValue body)
    (reached : Reachable signature returnsValue body index depth) :
    ∃ instruction after, Executes signature returnsValue body index depth instruction after := by
  have hi := List.getElem?_eq_getElem (h.inside index depth reached)
  obtain ⟨⟨pops, pushes⟩, he⟩ := exists_stackEffect_iff.mpr (h.resolved index depth _ reached hi)
  exact ⟨_, _, hi, pops, pushes, he, h.enough index depth _ pops pushes reached hi he, rfl⟩

theorem certificate (h : Consistent signature returnsValue body)
    (hr : InRange signature returnsValue body)
    (hb : ∀ depth, Occurs signature returnsValue body depth → depth ≤ bound) :
    Certificate signature returnsValue body bound (reachedDepth signature returnsValue body) where
  entered entry hm := by
    rw [h.reachedDepth_eq_some]
    rcases List.mem_append.mp hm with hm | hm
    · split_ifs at hm with hempty
      · cases hm
      · rw [List.mem_singleton.mp hm]
        exact .start (by simpa using hempty)
    · obtain ⟨handler, hh, hm⟩ := List.mem_flatMap.mp hm
      rcases List.mem_cons.mp hm with rfl | hm
      · exact .handler hh
      · simp only [Option.mem_toList, Option.map_eq_some_iff] at hm
        obtain ⟨start, hs, rfl⟩ := hm
        exact .filter hh hs
  passes index depth hd := by
    have reached := h.reachedDepth_eq_some.mp hd
    obtain ⟨instruction, after, run⟩ := h.executes reached
    have hstep : Steps signature returnsValue bound depth instruction after :=
      ⟨run.counted (hr _ _ _ _ reached run), hb depth (.before reached), hb after (.after reached run),
        h.emptied index depth instruction after reached run⟩
    refine ⟨instruction, after, run.found, hstep, fun successor hs => ?_⟩
    exact h.reachedDepth_eq_some.mpr (.step reached run (leadsTo_iff.mpr hs))

end Consistent
end Certificates

section Visits

open DepthAnalysis

variable {state : DepthAnalysis} {instructions : Array Instruction}

/-- One visit for each instruction that is not reached or not visited is enough: whether the analysis
fails or not, more visits make no difference. -/
theorem visitAll_of_remaining_le {fuel : Nat} (h : state.remaining ≤ fuel) (more : Nat) :
    visitAll signature returnsValue instructions (fuel + more) state =
      visitAll signature returnsValue instructions fuel state := by
  induction fuel generalizing state with
  | zero =>
    have hwork : state.work = [] := by
      apply List.length_eq_zero_iff.mp
      unfold DepthAnalysis.remaining at h
      omega
    cases more <;> simp [visitAll, hwork]
  | succ fuel ih =>
    rw [Nat.add_right_comm, visitAll, visitAll]
    cases hwork : state.work with
    | nil => rfl
    | cons index work =>
      have hless : DepthAnalysis.remaining { state with work } ≤ fuel := by
        simp only [DepthAnalysis.remaining, hwork, List.length_cons] at h ⊢
        omega
      dsimp only
      split
      · rename_i instruction depth hi hd
        cases hv : visit signature returnsValue index depth instruction { state with work } with
        | error error => rfl
        | ok next =>
          obtain ⟨after, -, -, hreaches, -⟩ := visit_ok hv
          have hnext : next.remaining ≤ fuel := hreaches.remaining.trans_le hless
          exact ih hnext
      · exact ih hless

theorem remaining_entered {entered : DepthAnalysis} {length : Nat} {entries : List (Nat × Nat)}
    (h : (DepthAnalysis.start length).enterAll entries = .ok entered) : entered.remaining ≤ length := by
  have hcount : (Array.replicate length (none : Option Nat)).countP (·.isNone) ≤ _ := Array.countP_le_size
  rw [(enterAll_ok h).1.remaining]
  simpa [DepthAnalysis.remaining, DepthAnalysis.start] using hcount

end Visits

section Exactness

variable (hr : InRange signature returnsValue body)

include hr

theorem exists_requiredStack_iff : (∃ required, body.requiredStack signature returnsValue = .ok required) ↔
    body.checkTargets = .ok () ∧ Consistent signature returnsValue body := by
  constructor
  · rintro ⟨required, h⟩
    obtain ⟨ht, depths, hc⟩ := certificate_of_requiredStack h
    exact ⟨ht, hc.consistent hr⟩
  · rintro ⟨ht, h⟩
    have hb : ∀ depth, Occurs signature returnsValue body depth → depth ≤ depthRange := fun _ hd =>
      (hr.occurs_lt hd).le
    obtain ⟨required, -, hrequired⟩ := (h.certificate hr hb).requiredStack ht
    exact ⟨required, hrequired⟩

/-- Nothing greater is required than any bound of what occurs. -/
theorem requiredStack_le {required bound : Nat} (h : body.requiredStack signature returnsValue = .ok required)
    (hb : ∀ depth, Occurs signature returnsValue body depth → depth ≤ bound) : required ≤ bound := by
  obtain ⟨ht, depths, hc⟩ := certificate_of_requiredStack h
  obtain ⟨required', hle, h'⟩ := ((hc.consistent hr).certificate hr hb).requiredStack ht
  rw [h, Except.ok.injEq] at h'
  omega

theorem isGreatest_requiredStack {required : Nat}
    (h : body.requiredStack signature returnsValue = .ok required) (hne : body.instructions ≠ []) :
    IsGreatest {depth | Occurs signature returnsValue body depth} required := by
  obtain ⟨-, depths, hc⟩ := certificate_of_requiredStack h
  have hupper : required ∈ upperBounds {depth | Occurs signature returnsValue body depth} :=
    fun _ hd => hc.occurs_le hr hd
  have hsome : {depth | Occurs signature returnsValue body depth}.Nonempty := ⟨0, .before (.start hne)⟩
  have hmem := Nat.sSup_mem hsome ⟨required, hupper⟩
  have hle := requiredStack_le hr h fun depth hd => le_csSup ⟨required, hupper⟩ hd
  have heq := le_antisymm hle (hupper hmem)
  rw [← heq] at hmem
  exact ⟨hmem, hupper⟩

theorem requiredStack_of_empty {required : Nat}
    (h : body.requiredStack signature returnsValue = .ok required) (hempty : body.instructions = []) :
    required = 0 := by
  obtain ⟨-, depths, hc⟩ := certificate_of_requiredStack h
  have hnone : ∀ index depth, ¬ Reachable signature returnsValue body index depth := by
    intro index depth reached
    have hlt := (hc.consistent hr).inside index depth reached
    simp [hempty] at hlt
  apply Nat.le_zero.mp
  apply requiredStack_le hr h
  intro depth hd
  cases hd with
  | before reached => exact absurd reached (hnone _ _)
  | after reached _ => exact absurd reached (hnone _ _)

end Exactness

section SmallAnswers

theorem Opcode.pushes_le_two (opcode : Opcode) {count : Nat} (h : opcode.info.pushes = .fixed count) :
    count ≤ 2 := by
  cases opcode <;> cases h <;> decide

/-- No instruction puts more than two values on the stack. -/
theorem pushes_le_two {depth pops pushes : Nat} {instruction : Instruction}
    (h : stackEffect signature returnsValue depth instruction = .ok (pops, pushes)) : pushes ≤ 2 := by
  have hfixed : ∀ count, instruction.info.pushes = .fixed count → count ≤ 2 := fun _ =>
    instruction.opcode.pushes_le_two
  unfold stackEffect at h
  grind [map_eq_ok, malformed]

/-- An answer that leaves room for what one instruction puts on the stack was not wrapped around. -/
theorem inRange_of_requiredStack {required : Nat} (h : body.requiredStack signature returnsValue = .ok required)
    (hroom : required + 2 < depthRange) : InRange signature returnsValue body := by
  obtain ⟨-, depths, hc⟩ := certificate_of_requiredStack h
  have hlt : ∀ index depth instruction after, depths index = some depth →
      Executes signature returnsValue body index depth instruction after → after < depthRange := by
    intro index depth instruction after hd run
    obtain ⟨_, _, _, hstep, _⟩ := hc.passes index depth hd
    obtain ⟨pops, pushes, he, hp, rfl⟩ := run.effect
    have hbefore := hstep.before_le
    have hpushes := pushes_le_two he
    omega
  intro index depth instruction after reached run
  refine hlt index depth instruction after (hc.depth_of_reachable ?_ reached) run
  exact fun index depth instruction after _ => hlt index depth instruction after

end SmallAnswers

/-- The analysis is exact where no reachable instruction lifts the depth above `0xFFFF`: it answers if and
only if the targets are in order and all that control can reach is consistent, and then with the greatest
depth that occurs, or zero in a body without instructions. Of any body, it never makes more visits than
there are instructions. -/
theorem requiredStack_exact (signature : Token → Result MethodSig) (returnsValue : Bool) (body : Body) :
    (InRange signature returnsValue body →
      ((∃ required, body.requiredStack signature returnsValue = .ok required) ↔
        body.checkTargets = .ok () ∧ Consistent signature returnsValue body) ∧
      ∀ required, body.requiredStack signature returnsValue = .ok required →
        (body.instructions = [] → required = 0) ∧
        (body.instructions ≠ [] → IsGreatest {depth | Occurs signature returnsValue body depth} required)) ∧
    ∀ entered more, (DepthAnalysis.start body.instructions.length).enterAll (entries body) = .ok entered →
      visitAll signature returnsValue body.instructions.toArray (body.instructions.length + more) entered =
        visitAll signature returnsValue body.instructions.toArray body.instructions.length entered := by
  refine ⟨fun hr => ⟨exists_requiredStack_iff hr, fun required h => ?_⟩, fun entered more h => ?_⟩
  · exact ⟨requiredStack_of_empty hr h, isGreatest_requiredStack hr h⟩
  · exact visitAll_of_remaining_le (remaining_entered h) more

/-- Two ways through a region with a filter, with a call on one of them, that meet at the return. -/
def guardedBody : Body where
  instructions :=
    [{ opcode := .ldarg0 }, { opcode := .brtrueS, operand := .target 5 },
      { opcode := .ldarg0 }, { opcode := .dup }, { opcode := .leaveS, operand := .target 11 },
      { opcode := .ldarg0 }, { opcode := .ldarg1 }, .withToken .call ⟨0x0A000001⟩,
      { opcode := .leaveS, operand := .target 11 },
      { opcode := .throw }, { opcode := .leaveS, operand := .target 11 }, { opcode := .ret }]
  handlers :=
    [{ flags := .filterBlock, tryStart := 2, tryEnd := 9, filterStart := some 9, handlerStart := 10,
       handlerEnd := 11 }]

def comparison (_ : Token) : Result MethodSig :=
  .ok { returnType := .primitive .i4, params := [.primitive .object, .primitive .object] }

theorem requiredStack_exact_guardedBody : InRange comparison false guardedBody ∧
    Consistent comparison false guardedBody ∧ IsGreatest {depth | Occurs comparison false guardedBody depth} 2 := by
  have hrequired : guardedBody.requiredStack comparison false = .ok 2 := rfl
  have hr : InRange comparison false guardedBody := inRange_of_requiredStack hrequired (by decide)
  obtain ⟨hiff, hgreatest⟩ := (requiredStack_exact comparison false guardedBody).1 hr
  exact ⟨hr, (hiff.mp ⟨2, hrequired⟩).2, (hgreatest 2 hrequired).2 (by simp [guardedBody])⟩

end HotPatch.Code
