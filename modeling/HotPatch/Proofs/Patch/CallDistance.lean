import HotPatch.Proofs.Patch.ClassificationOnce

/-!
# Depth of classification and distance in calls

A method is classified at the depth at which it is met first, and a method that
was met at the bound does not lead any further. As calls are followed one after
another, a method may be met first at the end of a long chain although a short
one leads to it as well. So the classified methods lie within the bound, and they
are all the methods within the bound exactly if no method that was met too late
has cut off others.
-/

namespace HotPatch

/-- A chain of that many calls leads from the start to the method. -/
inductive CallPath (calls : Token → List Token) (start : Token) : Nat → Token → Prop
  | start : CallPath calls start 0 start
  | call {length : Nat} {caller callee : Token} (path : CallPath calls start length caller)
    (mem : callee ∈ calls caller) : CallPath calls start (length + 1) callee

theorem CallPath.eq_start {calls : Token → List Token} {start method : Token} (path : CallPath calls start 0 method) :
    method = start := by
  cases path
  rfl

/-- At most that many calls lead from the start to the method. -/
def WithinCalls (calls : Token → List Token) (start : Token) (limit : Nat) (method : Token) : Prop :=
  ∃ length ≤ limit, CallPath calls start length method

/-- What classification has found out while the calls of some visited methods are still being followed. -/
structure Explored (calls : Token → List Token) (start : Token) (limit : Nat) (pending : List Visit)
    (state : ClassifyState) : Prop where
  ordered : state.map.Ordered
  known : ∀ method, state.map.contains method ↔ ∃ visit ∈ state.visits, visit.method = method
  depth : ∀ visit ∈ state.visits, visit.depth ≤ limit
  path : ∀ visit ∈ state.visits, CallPath calls start visit.depth visit.method
  closed : ∀ visit ∈ state.visits, visit.depth < limit →
    visit ∈ pending ∨ ∀ callee ∈ calls visit.method, state.map.contains callee

section Exploring

variable {kind : Token → Classification} {calls : Token → List Token} {start : Token} {limit : Nat}
  {pending : List Visit} {state later : ClassifyState}

/-- Visits are kept, and so are verdicts. -/
structure ClassifyState.GrowsTo (state later : ClassifyState) : Prop where
  visits : ∀ visit ∈ state.visits, visit ∈ later.visits
  contains : ∀ method, state.map.contains method → later.map.contains method

theorem ClassifyState.GrowsTo.refl (state : ClassifyState) : state.GrowsTo state :=
  ⟨fun _ => id, fun _ => id⟩

theorem ClassifyState.GrowsTo.trans {last : ClassifyState} (h : state.GrowsTo later) (h' : later.GrowsTo last) :
    state.GrowsTo last :=
  ⟨fun visit hv => h'.visits visit (h.visits visit hv), fun method hm => h'.contains method (h.contains method hm)⟩

/-- A method that is met for the first time gets its verdict. -/
theorem Explored.visit (h : Explored calls start limit pending state) {method : Token} {depth : Nat}
    (hpath : CallPath calls start depth method) (hdepth : depth ≤ limit) (kind : Classification) :
    Explored calls start limit (⟨method, depth, state.map.find? method⟩ :: pending)
      { state.visit method depth with map := state.map.record method kind } where
  ordered := h.ordered.record method kind
  known other := by
    rw [h.ordered.contains_record, h.known]
    simp only [ClassifyState.visit, List.mem_append, List.mem_singleton]
    constructor
    · rintro (rfl | ⟨visit, hv, he⟩)
      · exact ⟨_, .inr rfl, rfl⟩
      · exact ⟨visit, .inl hv, he⟩
    · rintro ⟨visit, hv | rfl, he⟩
      · exact .inr ⟨visit, hv, he⟩
      · exact .inl he
  depth visit hv := by
    rcases List.mem_append.mp hv with hv | hv
    · exact h.depth visit hv
    · rw [List.mem_singleton.mp hv]
      exact hdepth
  path visit hv := by
    rcases List.mem_append.mp hv with hv | hv
    · exact h.path visit hv
    · rw [List.mem_singleton.mp hv]
      exact hpath
  closed visit hv hlt := by
    rcases List.mem_append.mp hv with hv | hv
    · rcases h.closed visit hv hlt with hp | hc
      · exact .inl (List.mem_cons_of_mem _ hp)
      · exact .inr fun callee hm => h.ordered.contains_record.mpr (.inr (hc callee hm))
    · rw [List.mem_singleton.mp hv]
      exact .inl List.mem_cons_self

/-- All calls of the innermost method were followed. -/
theorem Explored.close {visit : Visit} (h : Explored calls start limit (visit :: pending) state)
    (hcalls : limit ≤ visit.depth ∨ ∀ callee ∈ calls visit.method, state.map.contains callee) :
    Explored calls start limit pending state where
  ordered := h.ordered
  known := h.known
  depth := h.depth
  path := h.path
  closed other hv hlt := by
    rcases h.closed other hv hlt with hp | hc
    · rcases List.mem_cons.mp hp with rfl | hp
      · exact .inr (hcalls.resolve_left (Nat.not_le.mpr hlt))
      · exact .inl hp
    · exact .inr hc

/-- Following calls one after another, where each call is explored. -/
theorem explored_followCalls {below : Token → ClassifyState → Result Unit × ClassifyState} {deep : Prop}
    {callees : List Token}
    (hbelow : ∀ callee ∈ callees, ∀ state, Explored calls start limit pending state →
      ∃ later, below callee state = (.ok (), later) ∧ Explored calls start limit pending later ∧
        state.GrowsTo later ∧ (deep ∨ later.map.contains callee))
    (h : Explored calls start limit pending state) :
    ∃ later, (Prescription.followCalls callees).perform below state = (.ok (), later) ∧
      Explored calls start limit pending later ∧ state.GrowsTo later ∧
      (deep ∨ ∀ callee ∈ callees, later.map.contains callee) := by
  induction callees generalizing state with
  | nil => exact ⟨state, rfl, h, .refl state, .inr nofun⟩
  | cons callee callees ih =>
    rw [List.forall_mem_cons] at hbelow
    obtain ⟨middle, hfirst, hmiddle, hgrows, hcallee⟩ := hbelow.1 state h
    obtain ⟨later, hrest, hlater, hgrows', hcallees⟩ := ih hbelow.2 hmiddle
    refine ⟨later, ?_, hlater, hgrows.trans hgrows', ?_⟩
    · rw [Prescription.followCalls, Procedure.perform, hfirst]
      exact hrest
    · rcases hcallee with hdeep | hcallee
      · exact .inl hdeep
      · refine hcallees.imp_right fun hall => ?_
        exact List.forall_mem_cons.mpr ⟨hgrows'.contains callee hcallee, hall⟩

/-- Giving a method its verdict and following its calls, where each call is explored. -/
theorem explored_ofCalls {below : Token → ClassifyState → Result Unit × ClassifyState} {method : Token}
    {depth : Nat} (hpath : CallPath calls start depth method) (hdepth : depth ≤ limit)
    (hbelow : ∀ callee ∈ calls method, ∀ pending state, Explored calls start limit pending state →
      ∃ later, below callee state = (.ok (), later) ∧ Explored calls start limit pending later ∧
        state.GrowsTo later ∧ (limit ≤ depth ∨ later.map.contains callee))
    (h : Explored calls start limit pending state) :
    ∃ later, (Classifier.ofCalls kind calls method).perform below (state.visit method depth) = (.ok (), later) ∧
      Explored calls start limit pending later ∧ state.GrowsTo later ∧
      ∃ visit ∈ later.visits, visit.method = method ∧ visit.depth = depth := by
  have hvisit := h.visit hpath hdepth (kind method)
  obtain ⟨later, hrest, hlater, hgrows, hcalls⟩ :=
    explored_followCalls (fun callee hm state hs => hbelow callee hm _ state hs) hvisit
  refine ⟨later, hrest, hlater.close hcalls, .trans ⟨fun visit hv => ?_, fun other ho => ?_⟩ hgrows, ?_⟩
  · exact List.mem_append_left _ hv
  · exact h.ordered.contains_record.mpr (.inr ho)
  · exact ⟨_, hgrows.visits _ (List.mem_append_right _ List.mem_cons_self), rfl, rfl⟩

/-- A method is explored as deep as the bound allows. -/
theorem explored_classifyMethod (kind : Token → Classification) {remaining depth : Nat} {method : Token}
    (hpath : CallPath calls start depth method) (hdepth : depth + remaining = limit)
    (h : Explored calls start limit pending state) :
    ∃ later, classifyMethod (.ofCalls kind calls) remaining depth method state = (.ok (), later) ∧
      Explored calls start limit pending later ∧ state.GrowsTo later ∧
      ∃ visit ∈ later.visits, visit.method = method ∧ visit.depth = depth := by
  induction remaining generalizing depth method pending state with
  | zero =>
    rw [classifyMethod]
    refine explored_ofCalls hpath (by omega) (fun callee hm pending state hs => ?_) h
    -- at the bound, no call is followed
    exact ⟨state, by split_ifs <;> rfl, hs, .refl state, .inl (by omega)⟩
  | succ remaining ih =>
    rw [classifyMethod]
    refine explored_ofCalls hpath (by omega) (fun callee hm pending state hs => ?_) h
    dsimp only
    split_ifs with hknown
    · exact ⟨state, rfl, hs, .refl state, .inr hknown⟩
    · obtain ⟨later, hc, hlater, hgrows, visit, hv, hmethod, -⟩ := ih (hpath.call hm) (by omega) hs
      exact ⟨later, hc, hlater, hgrows, .inr ((hlater.known callee).mpr ⟨visit, hv, hmethod⟩)⟩

end Exploring

section Distance

variable {kind : Token → Classification} {calls : Token → List Token} {start : Token} {limit : Nat}
  {state : ClassifyState}

/-- No method that was met at the bound, although fewer calls lead to it, has cut off what it calls. -/
def NothingCutOff (calls : Token → List Token) (start : Token) (limit : Nat) (state : ClassifyState) : Prop :=
  ∀ visit ∈ state.visits, visit.depth = limit → (∃ length < limit, CallPath calls start length visit.method) →
    ∀ callee ∈ calls visit.method, state.map.contains callee

namespace Explored

variable (h : Explored calls start limit [] state)

include h

theorem within {method : Token} (hm : state.map.contains method) : WithinCalls calls start limit method := by
  obtain ⟨visit, hv, rfl⟩ := (h.known method).mp hm
  exact ⟨visit.depth, h.depth visit hv, h.path visit hv⟩

/-- Along a chain within the bound, every method is reached unless one on the way was met too late. -/
theorem contains_of_path (hstart : state.map.contains start) (hcut : NothingCutOff calls start limit state)
    {length : Nat} {method : Token} (hpath : CallPath calls start length method) (hle : length ≤ limit) :
    state.map.contains method := by
  induction hpath with
  | start => exact hstart
  | @call length caller callee path mem ih =>
    obtain ⟨visit, hv, rfl⟩ := (h.known caller).mp (ih (by omega))
    rcases Nat.lt_or_eq_of_le (h.depth visit hv) with hlt | heq
    · exact (h.closed visit hv hlt).resolve_left nofun callee mem
    · exact hcut visit hv heq ⟨length, by omega, path⟩ callee mem

theorem complete_iff (hstart : state.map.contains start) :
    (∀ method, WithinCalls calls start limit method → state.map.contains method) ↔
      NothingCutOff calls start limit state := by
  constructor
  · rintro hall visit - - ⟨length, hlt, hpath⟩ callee hm
    exact hall callee ⟨length + 1, hlt, hpath.call hm⟩
  · rintro hcut method ⟨length, hle, hpath⟩
    exact h.contains_of_path hstart hcut hpath hle

/-- One call deep, every callee is met by a call from the start. -/
theorem nothingCutOff_of_shallow (hstart : ∃ visit ∈ state.visits, visit.method = start ∧ visit.depth = 0)
    (hlimit : limit ≤ 1) : NothingCutOff calls start limit state := by
  rintro visit - - ⟨length, hlt, hpath⟩ callee hm
  obtain ⟨first, hv, hmethod, hzero⟩ := hstart
  obtain rfl : length = 0 := by omega
  rw [hpath.eq_start, ← hmethod] at hm
  exact (h.closed first hv (by omega)).resolve_left nofun callee hm

/-- Where all chains to a method are equally long, no method is met too late. -/
theorem nothingCutOff_of_unique (hunique : ∀ method m n, m ≤ limit → n ≤ limit →
    CallPath calls start m method → CallPath calls start n method → m = n) :
    NothingCutOff calls start limit state := by
  rintro visit hv hdepth ⟨length, hlt, hpath⟩
  have heq := hunique visit.method length visit.depth hlt.le (h.depth visit hv) hpath (h.path visit hv)
  omega

end Explored

/-- What a classifier that follows calls leaves classified lies within the bound. It is everything within the bound
exactly if nothing was cut off, as it is when the bound is one call or when chains of calls within it that lead to
the same method are equally long. -/
theorem classified_withinCalls (kind : Token → Classification) (calls : Token → List Token) (start : Token)
    (limit : Nat) (pair : ModulePair) :
    ∃ state, classifyMethod (.ofCalls kind calls) limit 0 start { pair } = (.ok (), state) ∧
      (∀ method, state.map.contains method → WithinCalls calls start limit method) ∧
      ((∀ method, state.map.contains method ↔ WithinCalls calls start limit method) ↔
        NothingCutOff calls start limit state) ∧
      ((limit ≤ 1 ∨ ∀ method m n, m ≤ limit → n ≤ limit → CallPath calls start m method →
          CallPath calls start n method → m = n) →
        ∀ method, state.map.contains method ↔ WithinCalls calls start limit method) := by
  have hempty : Explored calls start limit [] { pair } :=
    ⟨ClassificationMap.ordered_empty, fun _ => by simp [ClassificationMap.contains, ClassificationMap.find?],
      nofun, nofun, nofun⟩
  obtain ⟨state, hc, h, -, first, hv, hmethod, hzero⟩ :=
    explored_classifyMethod kind .start (Nat.zero_add limit) hempty
  have hstart : state.map.contains start := (h.known start).mpr ⟨first, hv, hmethod⟩
  have hiff : (∀ method, state.map.contains method ↔ WithinCalls calls start limit method) ↔
      NothingCutOff calls start limit state := by
    rw [← h.complete_iff hstart]
    exact ⟨fun hall method => (hall method).mpr, fun hall method => ⟨h.within, hall method⟩⟩
  refine ⟨state, hc, fun _ => h.within, hiff, fun hcase => hiff.mpr ?_⟩
  rcases hcase with hlimit | hunique
  · exact h.nothingCutOff_of_shallow ⟨first, hv, hmethod, hzero⟩ hlimit
  · exact h.nothingCutOff_of_unique hunique

/-- The first method calls two others in the given order. The second method calls the third, and the third the
fourth. -/
def forkedCalls (first : List Token) (method : Token) : List Token :=
  if method = .ofRow .methodDef 1 then first
  else if method = .ofRow .methodDef 2 then [.ofRow .methodDef 3]
  else if method = .ofRow .methodDef 3 then [.ofRow .methodDef 4]
  else []

/-- The fourth method is two calls away. It is not reached if the third one is met behind the second. -/
theorem classified_order_matters :
    (∀ first ∈ [[Token.ofRow .methodDef 2, .ofRow .methodDef 3], [.ofRow .methodDef 3, .ofRow .methodDef 2]],
      WithinCalls (forkedCalls first) (.ofRow .methodDef 1) 2 (.ofRow .methodDef 4)) ∧
    ¬(classifyMethod (.ofCalls (fun _ => .fix) (forkedCalls [.ofRow .methodDef 2, .ofRow .methodDef 3])) 2 0
        (.ofRow .methodDef 1) { pair := Sample.pair }).2.map.contains (.ofRow .methodDef 4) ∧
    (classifyMethod (.ofCalls (fun _ => .fix) (forkedCalls [.ofRow .methodDef 3, .ofRow .methodDef 2])) 2 0
        (.ofRow .methodDef 1) { pair := Sample.pair }).2.map.contains (.ofRow .methodDef 4) := by
  refine ⟨fun first hf => ⟨2, le_rfl, ?_⟩, by decide +kernel, by decide +kernel⟩
  have hthird : Token.ofRow .methodDef 3 ∈ forkedCalls first (.ofRow .methodDef 1) := by
    fin_cases hf <;> decide
  have hfourth : Token.ofRow .methodDef 4 ∈ forkedCalls first (.ofRow .methodDef 3) := by
    fin_cases hf <;> decide
  exact (CallPath.start.call hthird).call hfourth

end Distance
end HotPatch
