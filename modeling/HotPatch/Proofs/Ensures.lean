import Mathlib.Tactic

/-!
# Assertions on computations that change a state and may fail

A computation ends with a value or with an error, and in both cases it leaves a
state behind. An assertion says what holds at each of the two ends.
-/

namespace HotPatch

variable {ε σ α β : Type}

/-- What holds after a computation that comes to its end, or after one that fails. -/
def Ensures (action : ExceptT ε (StateM σ) α) (s : σ) (done : α → σ → Prop) (cut : ε → σ → Prop) :
    Prop :=
  match action s with
  | (.ok value, s') => done value s'
  | (.error error, s') => cut error s'

theorem bind_apply (action : ExceptT ε (StateM σ) α) (next : α → ExceptT ε (StateM σ) β) (s : σ) :
    (action >>= next) s =
      match action s with
      | (.ok value, s') => next value s'
      | (.error error, s') => (.error error, s') := by
  change (match action s with | (result, s') => ExceptT.bindCont next result s') = _
  rcases action s with ⟨value | error, s'⟩ <;> rfl

theorem state_bind_apply (action : StateM σ α) (next : α → StateM σ β) (s : σ) :
    (action >>= next) s = next (action s).1 (action s).2 := rfl

theorem lift_apply (action : StateM σ α) (s : σ) :
    (liftM action : ExceptT ε (StateM σ) α) s = (.ok (action s).1, (action s).2) := rfl

namespace Ensures

variable {action : ExceptT ε (StateM σ) α} {s : σ} {done : α → σ → Prop} {cut : ε → σ → Prop}

theorem pure {value : α} (h : done value s) :
    Ensures (Pure.pure value : ExceptT ε (StateM σ) α) s done cut := h

theorem bind {next : α → ExceptT ε (StateM σ) β} {last : β → σ → Prop} (h : Ensures action s done cut)
    (hn : ∀ value s', done value s' → Ensures (next value) s' last cut) :
    Ensures (action >>= next) s last cut := by
  unfold Ensures at h
  rw [Ensures, bind_apply]
  rcases hr : action s with ⟨error | value, s'⟩
  · rwa [hr] at h
  · rw [hr] at h
    exact hn value s' h

theorem mono {done' : α → σ → Prop} {cut' : ε → σ → Prop} (h : Ensures action s done cut)
    (hd : ∀ value s', done value s' → done' value s') (hc : ∀ error s', cut error s' → cut' error s') :
    Ensures action s done' cut' := by
  unfold Ensures at h ⊢
  rcases hr : action s with ⟨error | value, s'⟩ <;> rw [hr] at h
  · exact hc error s' h
  · exact hd value s' h

theorem and {done' : α → σ → Prop} {cut' : ε → σ → Prop} (h : Ensures action s done cut)
    (h' : Ensures action s done' cut') :
    Ensures action s (fun value s' => done value s' ∧ done' value s')
      (fun error s' => cut error s' ∧ cut' error s') := by
  unfold Ensures at h h' ⊢
  rcases hr : action s with ⟨error | value, s'⟩ <;> rw [hr] at h h' <;> exact ⟨h, h'⟩

theorem lift {plain : StateM σ α} (h : done (plain s).1 (plain s).2) :
    Ensures (liftM plain : ExceptT ε (StateM σ) α) s done cut := h

/-- What every step keeps is kept by all of them. -/
theorem foldlM {items : List β} {step : α → β → ExceptT ε (StateM σ) α} {kept : σ → Prop}
    (h : ∀ value, ∀ item ∈ items, ∀ s, kept s → Ensures (step value item) s (fun _ s' => kept s') cut)
    (start : α) (hs : kept s) : Ensures (items.foldlM step start) s (fun _ s' => kept s') cut := by
  induction items generalizing start s with
  | nil => exact pure hs
  | cons item items ih =>
    rw [List.foldlM_cons]
    apply (h start item List.mem_cons_self s hs).bind
    intro value s' hs'
    exact ih (fun value other ho => h value other (List.mem_cons_of_mem _ ho)) value hs'

end Ensures
end HotPatch
