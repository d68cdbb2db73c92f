import HotPatch.Module.Edit
import HotPatch.Proofs.Ensures

/-!
# Computations that succeed

A computation made of steps succeeds exactly if every step does. These lemmas
take the success of a composed computation apart.
-/

namespace HotPatch

variable {ε σ α β : Type}

theorem bind_eq_ok {action : Except ε α} {next : α → Except ε β} {value : β} :
    (action >>= next) = .ok value ↔ ∃ first, action = .ok first ∧ next first = .ok value := by
  constructor
  · intro h
    rcases action with error | first
    · cases h
    · exact ⟨first, rfl, h⟩
  · rintro ⟨first, rfl, h⟩
    exact h

theorem eq_ok_of_toOption {result : Except ε α} {value : α} (h : result.toOption = some value) :
    result = .ok value := by
  rcases result with error | first
  · cases h
  · rw [show first = value from Option.some.inj h]

theorem eq_of_toOption {result : Except ε α × β} {value : α} (h : result.1.toOption = some value) :
    result = (.ok value, result.2) := by
  obtain ⟨error | first, last⟩ := result
  · cases h
  · rw [show first = value from Option.some.inj h]

theorem map_eq_ok {action : Except ε α} {change : α → β} {value : β} :
    action.map change = .ok value ↔ ∃ first, action = .ok first ∧ change first = value := by
  rcases action with error | first
  · simp [Except.map]
  · simp [Except.map]

theorem mapM_eq_ok {f : α → Except ε β} {items : List α} {values : List β} :
    items.mapM f = .ok values ↔ List.Forall₂ (fun item value => f item = .ok value) items values := by
  induction items generalizing values with
  | nil =>
    rw [List.mapM_nil, List.forall₂_nil_left_iff]
    constructor
    · intro h
      cases h
      rfl
    · rintro rfl
      rfl
  | cons item items ih =>
    rw [List.mapM_cons, List.forall₂_cons_left_iff, bind_eq_ok]
    constructor
    · rintro ⟨value, hv, h⟩
      obtain ⟨rest, hr, h⟩ := bind_eq_ok.mp h
      cases h
      exact ⟨value, rest, hv, ih.mp hr, rfl⟩
    · rintro ⟨value, rest, hv, hr, rfl⟩
      exact ⟨value, hv, bind_eq_ok.mpr ⟨rest, ih.mpr hr, rfl⟩⟩

/-- Changing the value of each member changes the values of the whole. -/
theorem mapM_map {γ : Type} (f : α → Except ε β) (change : β → γ) (items : List α) :
    items.mapM (fun item => (f item).map change) = (items.mapM f).map (List.map change) := by
  induction items with
  | nil => rfl
  | cons item items ih =>
    rw [List.mapM_cons, List.mapM_cons, ih]
    rcases f item with error | value
    · rfl
    · rcases items.mapM f with error | values
      · rfl
      · rfl

/-- Members that succeed under a condition, with a result that is known. -/
theorem mapM_eq_ok_map {f : α → Except ε β} {p : α → Prop} {g : α → β} {items : List α}
    {values : List β} (h : ∀ item ∈ items, ∀ value, f item = .ok value ↔ p item ∧ value = g item) :
    items.mapM f = .ok values ↔ (∀ item ∈ items, p item) ∧ values = items.map g := by
  rw [mapM_eq_ok]
  induction items generalizing values with
  | nil => simp
  | cons item items ih =>
    rw [List.forall_mem_cons] at h
    rw [List.forall₂_cons_left_iff, List.forall_mem_cons, List.map_cons]
    constructor
    · rintro ⟨value, rest, hv, hr, rfl⟩
      obtain ⟨hp, rfl⟩ := (h.1 value).mp hv
      obtain ⟨hall, rfl⟩ := (ih h.2).mp hr
      exact ⟨⟨hp, hall⟩, rfl⟩
    · rintro ⟨⟨hp, hall⟩, rfl⟩
      exact ⟨g item, items.map g, (h.1 _).mpr ⟨hp, rfl⟩, (ih h.2).mpr ⟨hall, rfl⟩, rfl⟩

theorem exists_of_mem_forall₂ {relation : α → β → Prop} {items : List α} {values : List β} {value : β}
    (h : List.Forall₂ relation items values) (hv : value ∈ values) : ∃ item ∈ items, relation item value := by
  induction h with
  | nil => cases hv
  | cons hf _ ih =>
    rcases List.mem_cons.mp hv with rfl | hv
    · exact ⟨_, List.mem_cons_self, hf⟩
    · obtain ⟨item, hi, hf⟩ := ih hv
      exact ⟨item, List.mem_cons_of_mem _ hi, hf⟩

/-- Values that are related to each other make related items, too. -/
theorem pairwise_of_forall₂ {relation : α → β → Prop} {among : β → β → Prop} {between : α → α → Prop}
    (hb : ∀ a b x y, relation a x → relation b y → among x y → between a b) {items : List α} {values : List β}
    (h : List.Forall₂ relation items values) (hvalues : values.Pairwise among) : items.Pairwise between := by
  induction h with
  | nil => exact .nil
  | cons hfirst hall ih =>
    obtain ⟨hahead, hvalues⟩ := List.pairwise_cons.mp hvalues
    refine List.pairwise_cons.mpr ⟨fun item hi => ?_, ih hvalues⟩
    obtain ⟨value, hv, hr⟩ := exists_of_mem_forall₂ hall.flip hi
    exact hb _ _ _ _ hfirst hr (hahead value hv)

theorem forall₂_trans {γ : Type} {first : α → β → Prop} {second : β → γ → Prop} {whole : α → γ → Prop}
    (hw : ∀ a b c, first a b → second b c → whole a c) {as : List α} {bs : List β} {cs : List γ}
    (h : List.Forall₂ first as bs) (h' : List.Forall₂ second bs cs) : List.Forall₂ whole as cs := by
  induction h generalizing cs with
  | nil =>
    cases h'
    exact .nil
  | cons hab _ ih =>
    cases h' with
    | cons hbc hrest => exact .cons (hw _ _ _ hab hbc) (ih hrest)

theorem exists_of_mem_mapM {f : α → Except ε β} {items : List α} {values : List β} {value : β}
    (h : items.mapM f = .ok values) (hv : value ∈ values) : ∃ item ∈ items, f item = .ok value := by
  obtain ⟨item, hi, hf⟩ := exists_of_mem_forall₂ (mapM_eq_ok.mp h) hv
  exact ⟨item, hi, hf⟩

/-- What succeeds item by item under one function succeeds likewise under one that succeeds as well. -/
theorem mapM_ok_mono {f g : α → Except ε β} {items : List α} {values : List β}
    (hfg : ∀ item ∈ items, ∀ value, f item = .ok value → g item = .ok value)
    (h : items.mapM f = .ok values) : items.mapM g = .ok values := by
  rw [mapM_eq_ok] at h ⊢
  induction h with
  | nil => exact .nil
  | cons hv _ ih =>
    exact .cons (hfg _ (by simp) _ hv) (ih fun item hi => hfg item (by simp [hi]))

theorem forM_eq_ok {f : α → Except ε Unit} {items : List α} :
    items.forM f = .ok () ↔ ∀ item ∈ items, f item = .ok () := by
  induction items with
  | nil => exact ⟨fun _ => by simp, fun _ => rfl⟩
  | cons item items ih =>
    rw [List.forM_eq_forM] at ih
    rw [List.forM_eq_forM, List.forM_cons, bind_eq_ok, List.forall_mem_cons, ← ih]
    exact ⟨fun ⟨_, hi, hr⟩ => ⟨hi, hr⟩, fun ⟨hi, hr⟩ => ⟨⟨⟩, hi, hr⟩⟩

theorem exists_mapM_eq_ok {f : α → Except ε β} {items : List α} :
    (∃ values, items.mapM f = .ok values) ↔ ∀ item ∈ items, ∃ value, f item = .ok value := by
  constructor
  · rintro ⟨values, h⟩ item hi
    have hall : List.Forall₂ (fun value item => f item = .ok value) values items := (mapM_eq_ok.mp h).flip
    obtain ⟨value, -, hf⟩ := exists_of_mem_forall₂ hall hi
    exact ⟨value, hf⟩
  · intro h
    induction items with
    | nil => exact ⟨[], rfl⟩
    | cons item items ih =>
      obtain ⟨value, hv⟩ := h item (by simp)
      obtain ⟨values, hvs⟩ := ih fun other ho => h other (by simp [ho])
      exact ⟨value :: values, mapM_eq_ok.mpr (.cons hv (mapM_eq_ok.mp hvs))⟩

theorem require_eq_ok {row : Option α} {token : Token} {value : α} :
    Module.require row token = .ok value ↔ row = some value := by
  rcases row with - | row
  · simp [Module.require]
  · simp [Module.require]

theorem run_bind_eq_ok {action : ExceptT ε (StateM σ) α} {next : α → ExceptT ε (StateM σ) β} {s s' : σ}
    {value : β} : (action >>= next) s = (.ok value, s') ↔
      ∃ first s₁, action s = (.ok first, s₁) ∧ next first s₁ = (.ok value, s') := by
  rw [bind_apply]
  constructor
  · intro h
    rcases hr : action s with ⟨error | first, s₁⟩ <;> rw [hr] at h
    · cases h
    · exact ⟨first, s₁, rfl, h⟩
  · rintro ⟨first, s₁, hr, h⟩
    rw [hr]
    exact h

theorem run_pure_eq_ok {value value' : α} {s s' : σ} :
    (pure value : ExceptT ε (StateM σ) α) s = (.ok value', s') ↔ value = value' ∧ s = s' := by
  constructor
  · intro h
    cases h
    exact ⟨rfl, rfl⟩
  · rintro ⟨rfl, rfl⟩
    rfl

namespace Edit

variable {module module' : Module} {value : α}

theorem inspect_eq_ok {look : Module → Result α} :
    Edit.inspect look module = (.ok value, module') ↔ look module = .ok value ∧ module = module' := by
  constructor
  · intro h
    exact ⟨congrArg Prod.fst h, congrArg Prod.snd h⟩
  · rintro ⟨h, rfl⟩
    rw [inspect, h]

theorem inspect_bind_eq_ok {look : Module → Result α} {next : α → Edit β} {value : β} :
    (Edit.inspect look >>= next) module = (.ok value, module') ↔
      ∃ first, look module = .ok first ∧ next first module = (.ok value, module') := by
  rw [run_bind_eq_ok]
  constructor
  · rintro ⟨first, middle, h, hn⟩
    obtain ⟨hl, rfl⟩ := inspect_eq_ok.mp h
    exact ⟨first, hl, hn⟩
  · rintro ⟨first, hl, hn⟩
    exact ⟨first, module, inspect_eq_ok.mpr ⟨hl, rfl⟩, hn⟩

theorem always_eq_ok {change : Module → α × Module} :
    Edit.always change module = (.ok value, module') ↔ change module = (value, module') := by
  constructor
  · intro h
    cases h
    rfl
  · intro h
    simp only [always, h]

theorem attempt_eq_ok {change : Module → Result (α × Module)} :
    Edit.attempt change module = (.ok value, module') ↔ change module = .ok (value, module') := by
  unfold attempt
  rcases change module with error | ⟨first, last⟩
  · constructor <;> intro h <;> cases h
  · constructor <;> intro h <;> cases h <;> rfl

theorem throw_ne_ok {error : Error} : (throw error : Edit α) module ≠ (.ok value, module') := by
  intro h
  cases h

/-- Every run that succeeds leads to a related module. -/
def Within (relation : Module → Module → Prop) (edit : Edit α) : Prop :=
  ∀ before value after, edit before = (.ok value, after) → relation before after

namespace Within

variable {relation : Module → Module → Prop} {edit : Edit α} (refl : ∀ module, relation module module)
  (trans : ∀ a b c, relation a b → relation b c → relation a c)

include refl in
theorem pure (value : α) : Within relation (Pure.pure value : Edit α) := by
  intro before value' after h
  obtain ⟨-, rfl⟩ := run_pure_eq_ok.mp h
  exact refl before

include refl in
theorem inspect (look : Module → Result α) : Within relation (Edit.inspect look) := by
  intro before value after h
  obtain ⟨-, rfl⟩ := inspect_eq_ok.mp h
  exact refl before

include trans

theorem bind {next : α → Edit β} (he : Within relation edit) (hn : ∀ value, Within relation (next value)) :
    Within relation (edit >>= next) := by
  intro before value after h
  obtain ⟨first, middle, hfirst, h⟩ := run_bind_eq_ok.mp h
  exact trans _ _ _ (he _ _ _ hfirst) (hn first _ _ _ h)

include refl

theorem mapM {items : List α} {step : α → Edit β} (hs : ∀ item, Within relation (step item)) :
    Within relation (items.mapM step) := by
  induction items with
  | nil => exact pure refl []
  | cons item items ih =>
    rw [List.mapM_cons]
    exact bind trans (hs item) fun value => bind trans ih fun rest => pure refl (value :: rest)

theorem forM {items : List α} {step : α → Edit PUnit} (hs : ∀ item, Within relation (step item)) :
    Within relation (items.forM step) := by
  induction items with
  | nil => exact pure refl PUnit.unit
  | cons item items ih =>
    rw [List.forM_eq_forM, List.forM_cons]
    exact bind trans (hs item) fun _ => ih

end Within

theorem get_bind {next : Module → Edit α} : (do next (← get) : Edit α) module = next module module := rfl

end Edit
end HotPatch
