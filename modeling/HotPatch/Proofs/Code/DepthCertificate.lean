import HotPatch.Body.StackDepth
import HotPatch.Proofs.Results

/-!
# Certificates for stack depths

A certificate assigns depths to instructions so that every entry has the depth
it is entered with, and every assigned instruction leads to its successors with
theirs. The analysis succeeds exactly if there is a certificate, and then the
depth that it requires is a bound for the certificate. Unlike the analysis, a
certificate says nothing about an order of visits, so it is easily carried over
to changed code.
-/

namespace HotPatch.Code

variable {signature : Token → Result MethodSig} {returnsValue : Bool} {bound : Nat}

/-- An instruction can be executed at a depth, and another one is counted after it. -/
structure Steps (signature : Token → Result MethodSig) (returnsValue : Bool) (bound depth : Nat)
    (instruction : Instruction) (after : Nat) : Prop where
  effect : ∃ pops pushes, stackEffect signature returnsValue depth instruction = .ok (pops, pushes) ∧
    pops ≤ depth ∧ after = depthAfter depth pops pushes
  before_le : depth ≤ bound
  after_le : after ≤ bound
  returned : instruction.info.flow = .return → after = 0

/-- The instruction with an index can be executed at a depth, and its successors have the depth that
it leaves. -/
def Passes (signature : Token → Result MethodSig) (returnsValue : Bool) (instructions : List Instruction)
    (bound : Nat) (depths : Nat → Option Nat) (index depth : Nat) : Prop :=
  ∃ instruction after, instructions[index]? = some instruction ∧
    Steps signature returnsValue bound depth instruction after ∧
    ∀ successor ∈ successors index instruction, depths successor = some after

/-- Depths that the instructions agree on, none of them above a bound. -/
structure Certificate (signature : Token → Result MethodSig) (returnsValue : Bool) (body : Body)
    (bound : Nat) (depths : Nat → Option Nat) : Prop where
  entered : ∀ entry ∈ entries body, depths entry.1 = some entry.2
  passes : ∀ index depth, depths index = some depth →
    Passes signature returnsValue body.instructions bound depths index depth

theorem Steps.mono {signature' : Token → Result MethodSig} {bound' depth after : Nat}
    {instruction : Instruction} (hs : ∀ token sig, signature token = .ok sig → signature' token = .ok sig)
    (hb : bound ≤ bound') (h : Steps signature returnsValue bound depth instruction after) :
    Steps signature' returnsValue bound' depth instruction after where
  effect := by
    obtain ⟨pops, pushes, he, hp, ha⟩ := h.effect
    refine ⟨pops, pushes, ?_, hp, ha⟩
    unfold stackEffect at he ⊢
    dsimp only at he ⊢
    by_cases hc : instruction.info.pops = .call ∨ instruction.info.pops = .construct ∨
      instruction.info.pushes = .call
    · rw [if_pos hc] at he ⊢
      rcases ht : instruction.token? with - | token <;> rw [ht] at he
      · cases he
      · obtain ⟨sig, hsig, he⟩ := map_eq_ok.mp he
        exact map_eq_ok.mpr ⟨sig, hs token sig hsig, he⟩
    · rw [if_neg hc] at he ⊢
      exact he
  before_le := h.before_le.trans hb
  after_le := h.after_le.trans hb
  returned := h.returned

/-- The effect of an instruction at a depth settles what is left after it. -/
theorem unique_of_effect {leave : Nat → Nat → Nat} {depth after after' : Nat} {instruction : Instruction}
    (h : ∃ pops pushes, stackEffect signature returnsValue depth instruction = .ok (pops, pushes) ∧
      pops ≤ depth ∧ after = leave pops pushes)
    (h' : ∃ pops pushes, stackEffect signature returnsValue depth instruction = .ok (pops, pushes) ∧
      pops ≤ depth ∧ after' = leave pops pushes) : after = after' := by
  obtain ⟨pops, pushes, he, -, rfl⟩ := h
  obtain ⟨pops', pushes', he', -, rfl⟩ := h'
  rw [he, Except.ok.injEq, Prod.mk.injEq] at he'
  rw [he'.1, he'.2]

theorem Steps.unique {bound' depth after after' : Nat} {instruction : Instruction}
    (h : Steps signature returnsValue bound depth instruction after)
    (h' : Steps signature returnsValue bound' depth instruction after') : after = after' :=
  unique_of_effect h.effect h'.effect

theorem Passes.mono {signature' : Token → Result MethodSig} {instructions : List Instruction}
    {bound' index depth : Nat} {depths depths' : Nat → Option Nat}
    (hs : ∀ token sig, signature token = .ok sig → signature' token = .ok sig) (hb : bound ≤ bound')
    (hd : ∀ index depth, depths index = some depth → depths' index = some depth)
    (h : Passes signature returnsValue instructions bound depths index depth) :
    Passes signature' returnsValue instructions bound' depths' index depth := by
  obtain ⟨instruction, after, hi, hstep, hnext⟩ := h
  exact ⟨instruction, after, hi, hstep.mono hs hb, fun successor hm => hd _ _ (hnext successor hm)⟩

/-- More calls may be resolved, and the bound may be raised. -/
theorem Certificate.mono {signature' : Token → Result MethodSig} {body : Body} {bound' : Nat}
    {depths : Nat → Option Nat}
    (hs : ∀ token sig, signature token = .ok sig → signature' token = .ok sig) (hb : bound ≤ bound')
    (h : Certificate signature returnsValue body bound depths) :
    Certificate signature' returnsValue body bound' depths where
  entered := h.entered
  passes index depth hd := (h.passes index depth hd).mono hs hb fun _ _ => id

namespace DepthAnalysis

variable {state next last : DepthAnalysis} {index depth : Nat}

/-- The depth of an instruction that was reached. -/
def depthOf (state : DepthAnalysis) (index : Nat) : Option Nat := state.depths[index]?.join

/-- How many visits may still follow: instructions that were not reached, and those that were reached
but not visited. -/
def remaining (state : DepthAnalysis) : Nat := state.depths.countP (·.isNone) + state.work.length

/-- Entering instructions reaches them without forgetting any that was reached before. -/
structure Reaches (state next : DepthAnalysis) : Prop where
  kept : ∀ index depth, state.depthOf index = some depth → next.depthOf index = some depth
  fresh : ∀ index depth, next.depthOf index = some depth →
    state.depthOf index = some depth ∨ index ∈ next.work
  work : state.work ⊆ next.work
  size : next.depths.size = state.depths.size
  maxDepth : next.maxDepth = state.maxDepth
  remaining : next.remaining = state.remaining

theorem Reaches.refl (state : DepthAnalysis) : state.Reaches state :=
  ⟨fun _ _ => id, fun _ _ => .inl, fun _ => id, rfl, rfl, rfl⟩

theorem Reaches.trans (h : state.Reaches next) (h' : next.Reaches last) : state.Reaches last where
  kept index depth hd := h'.kept index depth (h.kept index depth hd)
  fresh index depth hd := by
    rcases h'.fresh index depth hd with hd | hw
    · exact (h.fresh index depth hd).imp_right fun hw => h'.work hw
    · exact .inr hw
  work _ hw := h'.work (h.work hw)
  size := h'.size.trans h.size
  maxDepth := h'.maxDepth.trans h.maxDepth
  remaining := h'.remaining.trans h.remaining

theorem depthOf_set {other : Nat} (hi : index < state.depths.size) (work : List Nat) (maxDepth : Nat) :
    depthOf ⟨state.depths.set! index (some depth), work, maxDepth⟩ other =
      if other = index then some depth else state.depthOf other := by
  rw [depthOf, depthOf, Array.set!_eq_setIfInBounds, Array.getElem?_setIfInBounds]
  by_cases he : index = other
  · rw [if_pos he, if_pos hi, if_pos he.symm, Option.join_some]
  · rw [if_neg he, if_neg (Ne.symm he)]

theorem enter_ok (h : state.enter index depth = .ok next) :
    state.Reaches next ∧ next.depthOf index = some depth := by
  unfold enter at h
  split at h
  · cases h
  · rename_i existing hd
    split_ifs at h with he
    · cases h
      exact ⟨.refl state, by rw [depthOf, hd, Option.join_some, he]⟩
    · cases h
  · rename_i hd
    rw [Except.ok.injEq] at h
    subst h
    obtain ⟨hi, hnone⟩ := Array.getElem?_eq_some_iff.mp hd
    refine ⟨⟨fun other d ho => ?_, fun other d ho => ?_, by simp, by simp, rfl, ?_⟩, ?_⟩
    · rw [depthOf_set hi, if_neg, ho]
      rintro rfl
      rw [depthOf, hd, Option.join_some] at ho
      cases ho
    · rw [depthOf_set hi] at ho
      split_ifs at ho with he
      · exact .inr (by simp [he])
      · exact .inl ho
    · simp only [DepthAnalysis.remaining, Array.set!_eq_setIfInBounds, List.length_cons]
      rw [Array.setIfInBounds, dif_pos hi, Array.countP_set, hnone]
      have hpos : 0 < state.depths.countP (·.isNone) :=
        Array.countP_pos_iff.mpr ⟨none, hnone ▸ Array.getElem_mem hi, rfl⟩
      simp only [Option.isNone_none, Option.isNone_some, Bool.false_eq_true, if_true, if_false]
      omega
    · rw [depthOf_set hi, if_pos rfl]

theorem enterAll_ok {entries : List (Nat × Nat)} (h : state.enterAll entries = .ok next) :
    state.Reaches next ∧ ∀ entry ∈ entries, next.depthOf entry.1 = some entry.2 := by
  unfold enterAll at h
  induction entries generalizing state with
  | nil =>
    cases h
    exact ⟨.refl _, by simp⟩
  | cons entry entries ih =>
    rw [List.foldlM_cons] at h
    obtain ⟨middle, hm, h⟩ := bind_eq_ok.mp h
    obtain ⟨hfirst, hd⟩ := enter_ok hm
    obtain ⟨hrest, hall⟩ := ih h
    refine ⟨hfirst.trans hrest, fun other ho => ?_⟩
    rcases List.mem_cons.mp ho with rfl | ho
    · exact hrest.kept _ _ hd
    · exact hall other ho

end DepthAnalysis

section Sound

open DepthAnalysis

variable {state next : DepthAnalysis} {instructions : List Instruction} {index depth : Nat}
  {instruction : Instruction}

theorem visit_ok (h : visit signature returnsValue index depth instruction state = .ok next) :
    ∃ after, Steps signature returnsValue next.maxDepth depth instruction after ∧
      state.maxDepth ≤ next.maxDepth ∧ { state with maxDepth := next.maxDepth }.Reaches next ∧
      ∀ successor ∈ successors index instruction, next.depthOf successor = some after := by
  obtain ⟨⟨pops, pushes⟩, he, h⟩ := bind_eq_ok.mp h
  dsimp only at h
  split_ifs at h with hp hr
  · cases h
  · cases h
  · obtain ⟨hreaches, hall⟩ := enterAll_ok h
    have hmax := hreaches.maxDepth
    simp only [reachDepth] at hmax
    refine ⟨depthAfter depth pops pushes, ⟨⟨pops, pushes, he, by omega, rfl⟩, by omega, by omega, fun hf => ?_⟩,
      by omega, ?_, fun successor hs => ?_⟩
    · by_contra hne
      exact hr ⟨hf, hne⟩
    · have h := hreaches
      rw [hmax]
      exact h
    · exact hall (successor, depthAfter depth pops pushes) (List.mem_map_of_mem hs)

/-- What was reached has been visited, or is still to be visited. -/
def Visited (signature : Token → Result MethodSig) (returnsValue : Bool) (instructions : List Instruction)
    (state : DepthAnalysis) : Prop :=
  ∀ index depth, state.depthOf index = some depth → index ∈ state.work ∨
    Passes signature returnsValue instructions state.maxDepth state.depthOf index depth

/-- The instruction that is visited has passed, and the others are as they were. -/
theorem Visited.visit {work : List Nat} (hv : Visited signature returnsValue instructions state)
    (hwork : state.work = index :: work) (hi : instructions[index]? = some instruction)
    (hd : state.depthOf index = some depth)
    (h : Code.visit signature returnsValue index depth instruction { state with work } = .ok next) :
    Visited signature returnsValue instructions next ∧ { state with work, maxDepth := next.maxDepth }.Reaches next := by
  obtain ⟨after, hstep, hle, hreaches, hnext⟩ := visit_ok h
  refine ⟨fun other d ho => ?_, hreaches⟩
  rcases hreaches.fresh other d ho with hold | hw
  · by_cases he : other = index
    · subst he
      obtain rfl : depth = d := Option.some.inj (hd.symm.trans hold)
      exact .inr ⟨instruction, after, hi, hstep, hnext⟩
    · rcases hv other d hold with hw | hp
      · rw [hwork] at hw
        exact .inl (hreaches.work ((List.mem_cons.mp hw).resolve_left he))
      · exact .inr (hp.mono (fun _ _ => id) hle hreaches.kept)
  · exact .inl hw

theorem visitAll_ok {fuel : Nat} (hv : Visited signature returnsValue instructions state)
    (hsize : state.depths.size = instructions.length) (hfuel : state.remaining ≤ fuel)
    (h : visitAll signature returnsValue instructions.toArray fuel state = .ok next) :
    (∀ index depth, next.depthOf index = some depth →
        Passes signature returnsValue instructions next.maxDepth next.depthOf index depth) ∧
      ∀ index depth, state.depthOf index = some depth → next.depthOf index = some depth := by
  induction fuel generalizing state with
  | zero =>
    cases h
    have hwork : next.work = [] := List.length_eq_zero_iff.mp (by unfold remaining at hfuel; omega)
    refine ⟨fun index depth hd => (hv index depth hd).resolve_left ?_, fun _ _ => id⟩
    simp [hwork]
  | succ fuel ih =>
    rw [visitAll] at h
    rcases hwork : state.work with - | ⟨index, work⟩ <;> rw [hwork] at h
    · cases h
      refine ⟨fun index depth hd => (hv index depth hd).resolve_left ?_, fun _ _ => id⟩
      simp [hwork]
    · have hless : remaining { state with work } ≤ fuel := by
        simp only [remaining, hwork, List.length_cons] at hfuel ⊢
        omega
      dsimp only at h
      split at h
      · rename_i instruction depth hi hd
        obtain ⟨middle, hm, h⟩ := bind_eq_ok.mp h
        obtain ⟨hvisited, hreaches⟩ := hv.visit hwork (by simpa using hi)
          (by rw [depthOf, hd, Option.join_some]) hm
        obtain ⟨hpasses, hkept⟩ := ih hvisited (hreaches.size.trans hsize)
          (hreaches.remaining.trans_le hless) h
        exact ⟨hpasses, fun other d ho => hkept other d (hreaches.kept other d ho)⟩
      · rename_i hnone
        have hskipped : Visited signature returnsValue instructions { state with work } := by
          intro other d ho
          refine (hv other d ho).imp_left fun hw => ?_
          rw [hwork] at hw
          refine (List.mem_cons.mp hw).resolve_left ?_
          -- an instruction with a depth is there to be visited
          rintro rfl
          have hd : state.depths[other]? = some (some d) := Option.join_eq_some_iff.mp ho
          obtain ⟨hlt, -⟩ := Array.getElem?_eq_some_iff.mp hd
          exact hnone _ _ (Array.getElem?_eq_getElem (by simpa using hsize ▸ hlt)) hd
        obtain ⟨hpasses, hkept⟩ := ih hskipped hsize hless h
        exact ⟨hpasses, hkept⟩

end Sound

section Complete

open DepthAnalysis

variable {state : DepthAnalysis} {body : Body} {depths : Nat → Option Nat} {index depth : Nat}

/-- The analysis has reached nothing but what has the same depth in a certificate. -/
structure Follows (instructions : List Instruction) (bound : Nat) (depths : Nat → Option Nat)
    (state : DepthAnalysis) : Prop where
  size : state.depths.size = instructions.length
  maxDepth : state.maxDepth ≤ bound
  depth : ∀ index depth, state.depthOf index = some depth → depths index = some depth

theorem Follows.enter (hc : Certificate signature returnsValue body bound depths)
    (h : Follows body.instructions bound depths state) (hd : depths index = some depth) :
    ∃ next, state.enter index depth = .ok next ∧ Follows body.instructions bound depths next := by
  obtain ⟨instruction, -, hi, -⟩ := hc.passes index depth hd
  have hlt : index < state.depths.size := by
    rw [h.size]
    exact (List.getElem?_eq_some_iff.mp hi).1
  unfold DepthAnalysis.enter
  rcases hs : state.depths[index]? with - | - | existing
  · rw [Array.getElem?_eq_none_iff] at hs
    omega
  · refine ⟨_, rfl, ⟨by simpa using h.size, h.maxDepth, fun other d ho => ?_⟩⟩
    rw [depthOf_set hlt] at ho
    split_ifs at ho with he
    · rw [he, hd, ho]
    · exact h.depth other d ho
  · have hsame := h.depth index existing (by rw [depthOf, hs, Option.join_some])
    rw [hd, Option.some.injEq] at hsame
    exact ⟨state, if_pos hsame.symm, h⟩

theorem Follows.enterAll (hc : Certificate signature returnsValue body bound depths)
    (h : Follows body.instructions bound depths state) {entries : List (Nat × Nat)}
    (hd : ∀ entry ∈ entries, depths entry.1 = some entry.2) :
    ∃ next, state.enterAll entries = .ok next ∧ Follows body.instructions bound depths next := by
  unfold DepthAnalysis.enterAll
  induction entries generalizing state with
  | nil => exact ⟨state, rfl, h⟩
  | cons entry entries ih =>
    obtain ⟨middle, hm, hmiddle⟩ := h.enter hc (hd entry (by simp))
    obtain ⟨next, hn, hnext⟩ := ih hmiddle fun other ho => hd other (by simp [ho])
    exact ⟨next, by rw [List.foldlM_cons]; exact bind_eq_ok.mpr ⟨middle, hm, hn⟩, hnext⟩

theorem Follows.visit (hc : Certificate signature returnsValue body bound depths)
    (h : Follows body.instructions bound depths state) {instruction : Instruction}
    (hi : body.instructions[index]? = some instruction) (hd : depths index = some depth) :
    ∃ next, Code.visit signature returnsValue index depth instruction state = .ok next ∧
      Follows body.instructions bound depths next := by
  obtain ⟨instruction', after, hi', hstep, hnext⟩ := hc.passes index depth hd
  obtain rfl : instruction = instruction' := Option.some.inj (hi.symm.trans hi')
  obtain ⟨pops, pushes, he, hp, ha⟩ := hstep.effect
  have hreached : Follows body.instructions bound depths ((state.reachDepth depth).reachDepth after) :=
    ⟨h.size, max_le (max_le h.maxDepth hstep.before_le) hstep.after_le, h.depth⟩
  have hall : ∀ entry ∈ (successors index instruction).map (·, after), depths entry.1 = some entry.2 := by
    intro entry hm
    obtain ⟨successor, hs, rfl⟩ := List.mem_map.mp hm
    exact hnext successor hs
  obtain ⟨next, hn, hfollows⟩ := hreached.enterAll hc hall
  refine ⟨next, bind_eq_ok.mpr ⟨(pops, pushes), he, ?_⟩, hfollows⟩
  dsimp only
  rw [if_neg (by omega), ← ha, if_neg fun hr => hr.2 (hstep.returned hr.1), hn]

theorem Follows.visitAll (hc : Certificate signature returnsValue body bound depths)
    (h : Follows body.instructions bound depths state) (fuel : Nat) :
    ∃ next, Code.visitAll signature returnsValue body.instructions.toArray fuel state = .ok next ∧
      Follows body.instructions bound depths next := by
  induction fuel generalizing state with
  | zero => exact ⟨state, rfl, h⟩
  | succ fuel ih =>
    rw [Code.visitAll]
    rcases hwork : state.work with - | ⟨index, work⟩
    · exact ⟨state, rfl, h⟩
    · have hrest : Follows body.instructions bound depths { state with work } := ⟨h.size, h.maxDepth, h.depth⟩
      dsimp only
      split
      · rename_i instruction depth hi hd
        have hdepth := h.depth index depth (by rw [depthOf, hd, Option.join_some])
        obtain ⟨middle, hm, hmiddle⟩ := hrest.visit hc (by simpa using hi) hdepth
        obtain ⟨next, hn, hnext⟩ := ih hmiddle
        exact ⟨next, bind_eq_ok.mpr ⟨middle, hm, hn⟩, hnext⟩
      · exact ih hrest

end Complete

section Exact

open DepthAnalysis

variable {body : Body} {required : Nat}

theorem depthOf_start (length index : Nat) : (DepthAnalysis.start length).depthOf index = none := by
  rw [depthOf, DepthAnalysis.start, Array.getElem?_replicate]
  split_ifs <;> rfl

/-- What the analysis reached is a certificate with the required depth as its bound. -/
theorem certificate_of_requiredStack (h : body.requiredStack signature returnsValue = .ok required) :
    body.checkTargets = .ok () ∧ ∃ depths, Certificate signature returnsValue body required depths := by
  obtain ⟨⟨⟩, ht, h⟩ := bind_eq_ok.mp h
  obtain ⟨entered, he, h⟩ := bind_eq_ok.mp h
  obtain ⟨visited, hv, h⟩ := bind_eq_ok.mp h
  cases h
  obtain ⟨hreaches, hentries⟩ := enterAll_ok he
  have hstart : Visited signature returnsValue body.instructions entered := by
    intro index depth hd
    rcases hreaches.fresh index depth hd with hold | hw
    · rw [depthOf_start] at hold
      cases hold
    · exact .inl hw
  have hsize : entered.depths.size = body.instructions.length := by
    rw [hreaches.size]
    simp [DepthAnalysis.start]
  have hremaining : entered.remaining ≤ body.instructions.length := by
    rw [hreaches.remaining, DepthAnalysis.remaining]
    have hcount : (Array.replicate body.instructions.length (none : Option Nat)).countP (·.isNone) ≤ _ :=
      Array.countP_le_size
    simpa [DepthAnalysis.start] using hcount
  obtain ⟨hpasses, hkept⟩ := visitAll_ok hstart hsize hremaining hv
  exact ⟨ht, visited.depthOf, fun entry hm => hkept _ _ (hentries entry hm), hpasses⟩

/-- With a certificate, the analysis succeeds and requires no more than the bound. -/
theorem Certificate.requiredStack {depths : Nat → Option Nat}
    (hc : Certificate signature returnsValue body bound depths) (ht : body.checkTargets = .ok ()) :
    ∃ required ≤ bound, body.requiredStack signature returnsValue = .ok required := by
  have hstart : Follows body.instructions bound depths (.start body.instructions.length) := by
    refine ⟨by simp [DepthAnalysis.start], Nat.zero_le _, fun index depth hd => ?_⟩
    rw [depthOf_start] at hd
    cases hd
  obtain ⟨entered, he, hentered⟩ := hstart.enterAll hc hc.entered
  obtain ⟨visited, hv, hvisited⟩ := hentered.visitAll hc body.instructions.length
  refine ⟨visited.maxDepth, hvisited.maxDepth, ?_⟩
  exact bind_eq_ok.mpr ⟨(), ht, bind_eq_ok.mpr ⟨entered, he, bind_eq_ok.mpr ⟨visited, hv, rfl⟩⟩⟩

end Exact
end HotPatch.Code
