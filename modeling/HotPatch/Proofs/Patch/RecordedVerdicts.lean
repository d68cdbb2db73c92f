import HotPatch.Proofs.Patch.Verdicts

/-!
# What a map of verdicts says

A map is known by what it holds for each method, since it lists its methods in
token order. It holds the strongest of the verdicts that were recorded, which do
not depend on order or repetition, so neither does the map nor anything that is
read from it.
-/

namespace HotPatch

namespace Classification

theorem touchesType_iff_rank {kind : Classification} : kind.touchesType ↔ 0 < kind.rank := by
  cases kind <;> decide

theorem touchesType_iff {kind : Classification} : kind.touchesType ↔ kind = .hook ∨ kind = .fix := by
  cases kind <;> decide

end Classification

variable {verdicts others : List (Token × Classification)} {method : Token} {kind : Classification}

theorem Strongest.congr (hmem : ∀ verdict, verdict ∈ others ↔ verdict ∈ verdicts) :
    Strongest others method kind ↔ Strongest verdicts method kind := by
  simp only [Strongest, hmem]

/-- The strongest verdict affects the type if any verdict does. -/
theorem Strongest.touchesType_iff (h : Strongest verdicts method kind) :
    kind.touchesType ↔ ∃ other, (method, other) ∈ verdicts ∧ other.touchesType := by
  refine ⟨fun ht => ⟨kind, h.1, ht⟩, fun ⟨other, hm, ht⟩ => ?_⟩
  rw [Classification.touchesType_iff_rank] at ht ⊢
  exact ht.trans_le (h.2 other hm)

namespace ClassificationMap

variable {map other : ClassificationMap}

section Lookup

/-- No method is listed twice. -/
theorem Ordered.nodup (h : map.Ordered) : (map.entries.map (·.1)).Nodup := by
  rw [List.Nodup, List.pairwise_map]
  refine List.Pairwise.imp ?_ h
  intro a b hlt he
  rw [he] at hlt
  exact UInt32.lt_irrefl _ hlt

/-- The entries of a map are what is found in it. -/
theorem Ordered.mem_entries (h : map.Ordered) : (method, kind) ∈ map.entries ↔ map.find? method = some kind := by
  have hkey : ∀ {entry}, map.entries.find? (·.1 == method) = some entry → entry.1 = method := by
    intro entry he
    simpa using List.find?_some he
  rw [find?, Option.map_eq_some_iff]
  constructor
  · intro hm
    have hfound : (map.entries.find? (·.1 == method)).isSome :=
      List.find?_isSome.mpr ⟨(method, kind), hm, beq_self_eq_true method⟩
    obtain ⟨entry, he⟩ := Option.isSome_iff_exists.mp hfound
    have hsame : entry = (method, kind) :=
      List.inj_on_of_nodup_map h.nodup (List.mem_of_find?_eq_some he) hm (hkey he)
    exact ⟨entry, he, by rw [hsame]⟩
  · rintro ⟨entry, he, rfl⟩
    rw [← hkey he]
    exact List.mem_of_find?_eq_some he

/-- Maps that hold the same for each method are equal. -/
theorem Ordered.ext (h : map.Ordered) (h' : other.Ordered) (hfind : ∀ method, map.find? method = other.find? method) :
    map = other := by
  have hperm : map.entries.Perm other.entries := by
    rw [List.perm_ext_iff_of_nodup h.nodup.of_map h'.nodup.of_map]
    rintro ⟨method, kind⟩
    rw [h.mem_entries, h'.mem_entries, hfind]
  have heq : map.entries = other.entries := by
    refine hperm.eq_of_pairwise (fun a b _ _ hab hba => ?_) h h'
    exact absurd (UInt32.lt_trans hab hba) (UInt32.lt_irrefl _)
  cases map
  cases other
  exact congrArg ClassificationMap.mk heq

end Lookup

/-- Every entry has one of the three verdicts. -/
theorem count_add (map : ClassificationMap) : map.count .unchanged + map.count .fix + map.count .hook = map.size := by
  unfold count size
  induction map.entries with
  | nil => rfl
  | cons entry entries ih =>
    obtain ⟨method, kind⟩ := entry
    rw [List.length_cons, ← ih]
    cases kind <;> simp only [List.countP_cons] <;> simp <;> omega

theorem mem_touchedTypes {module : Module} {owner : Token} : owner ∈ map.touchedTypes module ↔
    ∃ method kind, (method, kind) ∈ map.entries ∧ kind.touchesType ∧ module.methodOwner? method = some owner := by
  simp only [touchedTypes, TokenSet.mem_ofList, List.mem_filterMap, List.mem_filter, Prod.exists, and_assoc]

/-- A map that says of each method what was recorded for it. -/
structure Records (verdicts : List (Token × Classification)) (map : ClassificationMap) : Prop where
  strongest : ∀ method kind, (method, kind) ∈ verdicts → Strongest verdicts method (map.get method)
  unrecorded : ∀ method, (∀ kind, (method, kind) ∉ verdicts) → map.get method = .unchanged
  contains : ∀ method, map.contains method ↔ ∃ kind, (method, kind) ∈ verdicts
  listed : ∀ method kind, (method, kind) ∈ map.entries ↔ Strongest verdicts method kind
  ordered : map.Ordered
  counts : map.count .unchanged + map.count .fix + map.count .hook = map.size
  touched : ∀ module owner, owner ∈ map.touchedTypes module ↔ ∃ method kind, (method, kind) ∈ verdicts ∧
    (kind = .hook ∨ kind = .fix) ∧ module.methodOwner? method = some owner
  ascending : ∀ module, TokenSet.Ascending (map.touchedTypes module)

theorem records_ofList (verdicts : List (Token × Classification)) : Records verdicts (ofList verdicts) := by
  have hordered := ordered_ofList verdicts
  have hfound : ∀ {method kind}, (method, kind) ∈ verdicts →
      ∃ strongest, (ofList verdicts).find? method = some strongest := by
    intro method kind hm
    rw [← Option.ne_none_iff_exists']
    exact fun hnone => (recorded_ofList verdicts method).1 hnone kind hm
  constructor
  case strongest =>
    intro method kind hm
    obtain ⟨strongest, hs⟩ := hfound hm
    rw [get, hs]
    exact (find?_ofList verdicts method strongest).mp hs
  case unrecorded =>
    intro method hnone
    rcases hf : (ofList verdicts).find? method with - | kind
    · rw [get, hf, Option.getD_none]
    · exact absurd ((find?_ofList verdicts method kind).mp hf).1 (hnone kind)
  case contains =>
    intro method
    rw [contains_iff]
    exact ⟨fun ⟨kind, hf⟩ => ⟨kind, ((find?_ofList verdicts method kind).mp hf).1⟩, fun ⟨_, hm⟩ => hfound hm⟩
  case listed =>
    intro method kind
    rw [hordered.mem_entries, find?_ofList]
  case ordered => exact hordered
  case counts => exact count_add _
  case touched =>
    intro module owner
    simp only [mem_touchedTypes, hordered.mem_entries, find?_ofList, ← Classification.touchesType_iff]
    constructor
    · rintro ⟨method, kind, hs, ht, ho⟩
      exact ⟨method, kind, hs.1, ht, ho⟩
    · rintro ⟨method, kind, hm, ht, ho⟩
      obtain ⟨strongest, hf⟩ := hfound hm
      have hs := (find?_ofList verdicts method strongest).mp hf
      exact ⟨method, strongest, hs, hs.touchesType_iff.mpr ⟨kind, hm, ht⟩, ho⟩
  case ascending => exact fun module => TokenSet.ascending_ofList _

/-- However often and in whatever order the same verdicts are recorded, the map is the same, and it says of each
method what was recorded for it. -/
theorem ofList_order_free (hsub : others ⊆ verdicts) (hsup : verdicts ⊆ others) :
    ofList others = ofList verdicts ∧ Records verdicts (ofList others) := by
  have hmem : ∀ verdict, verdict ∈ others ↔ verdict ∈ verdicts := fun _ => ⟨fun h => hsub h, fun h => hsup h⟩
  have heq : ofList others = ofList verdicts := by
    refine (ordered_ofList others).ext (ordered_ofList verdicts) fun method => Option.ext fun kind => ?_
    rw [find?_ofList, find?_ofList, Strongest.congr hmem]
  rw [heq]
  exact ⟨rfl, records_ofList verdicts⟩

/-- A method that is hooked, then left unchanged, beside one that is fixed. -/
theorem ofList_order_free_hooked :
    let verdicts : List (Token × Classification) :=
      [(⟨0x06000002⟩, .hook), (⟨0x06000002⟩, .unchanged), (⟨0x06000001⟩, .fix)]
    let others : List (Token × Classification) :=
      [(⟨0x06000001⟩, .fix), (⟨0x06000002⟩, .unchanged), (⟨0x06000002⟩, .hook), (⟨0x06000001⟩, .fix)]
    others ⊆ verdicts ∧ verdicts ⊆ others ∧ ofList others = ofList verdicts ∧
      Strongest verdicts ⟨0x06000002⟩ ((ofList others).get ⟨0x06000002⟩) := by
  intro verdicts others
  have hsub : others ⊆ verdicts := by decide
  have hsup : verdicts ⊆ others := by decide
  obtain ⟨heq, hrecords⟩ := ofList_order_free hsub hsup
  exact ⟨hsub, hsup, heq, hrecords.strongest ⟨0x06000002⟩ .hook (by decide)⟩

end ClassificationMap
end HotPatch
