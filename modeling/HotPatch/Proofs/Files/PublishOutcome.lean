import HotPatch.Proofs.Files.DiskLaws
import HotPatch.Proofs.Files.RollBack

/-!
# How publishing ends

An attempt is followed through its steps with two assertions at once: one for
the way on, and `Restorable` for every point at which it may be interrupted.
-/

namespace HotPatch.Publish

open Holdings (AgreeExcept)

variable {σ : Type} {fs : FileSystem σ} {held : σ → Holdings}

section Attempt

variable {paths : PublishedPaths} {written : Image.Written} {tag : String} {s : σ}
  (law : fs.Lawful held (attemptArea paths tag))

/-- As long as nothing is installed, an attempt that has only touched its own files can be undone. -/
theorem restorable_of_agree {pending : List Path} {made : List (Path × Path)} {before now : Holdings}
    (hfresh : ∀ path ∈ temporaries paths tag, before path = none)
    (himage : paths.image ∉ temporaries paths tag) (hsymbols : paths.symbols ∉ temporaries paths tag)
    (hp : pending.Sublist (pendings paths tag)) (hb : made.Sublist (backups paths tag))
    (h : AgreeExcept (attemptArea paths tag) (pending ++ made.map (·.1)) before now) :
    Restorable paths written tag before { pending, backups := made } now := by
  have hsub : ∀ path ∈ pending ++ made.map (·.1), path ∈ temporaries paths tag := by
    intro path hm
    exact ((hp.append (hb.map _)).subset hm)
  refine ⟨hp, hb, fun path hm hnp hnb => ?_, ?_, .inl ⟨rfl, ?_⟩⟩
  · rw [h path (mem_attemptArea hm) (by simpa using ⟨hnp, by simpa using hnb⟩), hfresh path hm]
  · exact h _ (by simp [attemptArea]) fun hm => hsymbols (hsub _ hm)
  · exact h _ (by simp [attemptArea]) fun hm => himage (hsub _ hm)

include law

theorem writes_ensures :
    Ensures ([(paths.image, written.image), (paths.symbols, written.symbols)].foldlM
        (writePending fs tag) {}) s
      (fun progress s' => progress = { pending := pendings paths tag } ∧
        AgreeExcept (attemptArea paths tag) (pendings paths tag) (held s) (held s') ∧
        held s' (paths.symbols.sibling "pending" tag) = some written.symbols ∧
        (paths.image.sibling "pending" tag ≠ paths.symbols.sibling "pending" tag →
          held s' (paths.image.sibling "pending" tag) = some written.image))
      (fun interruption s' => ∃ pending : List Path, pending.Sublist (pendings paths tag) ∧
        interruption.progress = { pending } ∧
        AgreeExcept (attemptArea paths tag) pending (held s) (held s')) := by
  have hmem : ∀ path ∈ pendings paths tag, path ∈ attemptArea paths tag := fun path hm =>
    mem_attemptArea (List.mem_append_left _ hm)
  simp only [List.foldlM_cons, List.foldlM_nil]
  refine Ensures.bind ((writePending_ensures law (hmem _ (by simp [pendings]))).mono
    (fun _ _ h => h) ?_) ?_
  · rintro interruption s' ⟨hp, ha⟩
    exact ⟨_, by simp [pendings], hp, ha⟩
  · rintro progress s₁ ⟨rfl, ha, himage⟩
    refine Ensures.bind ((writePending_ensures law (hmem _ (by simp [pendings]))).mono
      (fun _ _ h => h) ?_) ?_
    · rintro interruption s' ⟨hp, ha'⟩
      exact ⟨pendings paths tag, .refl _, hp, (ha.mono (by simp [pendings])).trans
        (ha'.mono (by simp [pendings]))⟩
    · rintro progress s₂ ⟨rfl, ha', hsymbols⟩
      refine Ensures.pure ⟨rfl, (ha.mono (by simp [pendings])).trans (ha'.mono (by simp [pendings])),
        hsymbols, fun hne => ?_⟩
      rw [ha' _ (hmem _ (by simp [pendings])) (by simpa using hne), himage]

/-- The copies of the files that there are. -/
def madeBackups (paths : PublishedPaths) (tag : String) (before : Holdings) : List (Path × Path) :=
  (backups paths tag).filter fun backup => (before backup.2).isSome

omit law in
theorem madeBackups_sublist (before : Holdings) : (madeBackups paths tag before).Sublist (backups paths tag) :=
  List.filter_sublist

omit law in
theorem madeBackups_eq (before : Holdings) :
    madeBackups paths tag before = copied before tag paths.image ++ copied before tag paths.symbols :=
  List.filter_append [_] [_]

omit law in
theorem madeBackups_congr {before after : Holdings} (hi : after paths.image = before paths.image)
    (hs : after paths.symbols = before paths.symbols) : madeBackups paths tag after = madeBackups paths tag before := by
  rw [madeBackups_eq, madeBackups_eq, copied_congr hi, copied_congr hs]

theorem backups_ensures {pending : List Path} (himage : paths.image ∉ temporaries paths tag)
    (hsymbols : paths.symbols ∉ temporaries paths tag) :
    Ensures ([paths.image, paths.symbols].foldlM (backUp fs tag) { pending }) s
      (fun progress s' => progress = { pending, backups := madeBackups paths tag (held s) } ∧
        AgreeExcept (attemptArea paths tag) ((madeBackups paths tag (held s)).map (·.1)) (held s) (held s') ∧
        (paths.image.sibling "backup" tag ≠ paths.symbols.sibling "backup" tag →
          ∀ backup ∈ madeBackups paths tag (held s), held s' backup.1 = held s backup.2))
      (fun interruption s' => ∃ made : List (Path × Path), made.Sublist (backups paths tag) ∧
        interruption.progress = { pending, backups := made } ∧
        AgreeExcept (attemptArea paths tag) (made.map (·.1)) (held s) (held s')) := by
  have hmem : ∀ path ∈ (backups paths tag).map (·.1), path ∈ attemptArea paths tag ∧
      paths.image ≠ path ∧ paths.symbols ≠ path := by
    intro path hm
    have ht : path ∈ temporaries paths tag := List.mem_append_right _ hm
    exact ⟨mem_attemptArea ht, fun he => himage (he ▸ ht), fun he => hsymbols (he ▸ ht)⟩
  obtain ⟨hi, hii, hsi⟩ := hmem (paths.image.sibling "backup" tag) (by simp [backups])
  obtain ⟨hs, -, hss⟩ := hmem (paths.symbols.sibling "backup" tag) (by simp [backups])
  have hone : ∀ {path other}, other ≠ Path.sibling path "backup" tag →
      other ∉ (copied (held s) tag path).map (·.1) := fun hne hm =>
    hne (List.mem_singleton.mp ((copied_sublist.map _).subset hm))
  simp only [List.foldlM_cons, List.foldlM_nil]
  refine Ensures.bind ((backUp_ensures law (by simp [attemptArea]) hi hii).mono (fun _ _ h => h) ?_) ?_
  · rintro interruption s' ⟨hp, ha⟩
    exact ⟨_, copied_sublist.trans (List.sublist_append_left [_] [_]), hp, ha⟩
  · rintro progress s₁ ⟨rfl, ha, hc⟩
    have hkeep : held s₁ paths.symbols = held s paths.symbols := ha _ (by simp [attemptArea]) (hone hsi)
    have hafter : ∀ {s' : σ},
        AgreeExcept (attemptArea paths tag) ((copied (held s₁) tag paths.symbols).map (·.1)) (held s₁) (held s') →
        AgreeExcept (attemptArea paths tag) ((madeBackups paths tag (held s)).map (·.1)) (held s) (held s') := by
      intro s' ha'
      rw [copied_congr hkeep] at ha'
      rw [madeBackups_eq, List.map_append]
      exact (ha.mono (List.subset_append_left _ _)).trans (ha'.mono (List.subset_append_right _ _))
    refine Ensures.bind ((backUp_ensures law (by simp [attemptArea]) hs hss).mono (fun _ _ h => h) ?_) ?_
    · rintro interruption s' ⟨hp, ha'⟩
      refine ⟨madeBackups paths tag (held s), madeBackups_sublist _, ?_, hafter ha'⟩
      rw [hp, madeBackups_eq, copied_congr hkeep, List.nil_append]
    · rintro progress s₂ ⟨rfl, ha', hc'⟩
      refine Ensures.pure ⟨?_, hafter ha', fun hne backup hm => ?_⟩
      · rw [madeBackups_eq, copied_congr hkeep, List.nil_append]
      · rw [copied_congr hkeep] at ha'
        rw [hkeep] at hc'
        rw [madeBackups_eq, List.mem_append, mem_copied, mem_copied] at hm
        rcases hm with ⟨rfl, hsome⟩ | ⟨rfl, hsome⟩
        · rw [ha' _ hi (hone hne), hc hsome]
        · exact hc' hsome

/-- The steps before anything is installed. -/
def prepare (fs : FileSystem σ) (paths : PublishedPaths) (written : Image.Written) (tag : String) :
    Attempt σ Progress := do
  let progress ← [(paths.image, written.image), (paths.symbols, written.symbols)].foldlM
    (writePending fs tag) {}
  let progress ← [paths.image, paths.symbols].foldlM (backUp fs tag) progress
  fs.unload paths.image
  return progress

/-- What the copies leave behind, from where the pending files are installed. -/
structure Prepared (paths : PublishedPaths) (written : Image.Written) (tag : String)
    (before now : Holdings) : Prop where
  restorable : Restorable paths written tag before
    { pending := pendings paths tag, backups := madeBackups paths tag before } now
  image : now (paths.image.sibling "pending" tag) = some written.image
  symbols : now (paths.symbols.sibling "pending" tag) = some written.symbols
  copy : (before paths.image).isSome → now (paths.image.sibling "backup" tag) = before paths.image

omit law in
/-- Once the image is installed, its copy is what the roll-back needs. -/
theorem Prepared.install_image {before now after : Holdings} (hnd : (attemptArea paths tag).Nodup)
    (h : Prepared paths written tag before now)
    (ha : AgreeExcept (attemptArea paths tag) [paths.image.sibling "pending" tag, paths.image] now after)
    (hi : after paths.image = some written.image) :
    Restorable paths written tag before
      ⟨pendings paths tag, madeBackups paths tag before, [paths.image]⟩ after := by
  have hkeep : ∀ path ∈ temporaries paths tag, path ∉ pendings paths tag → after path = now path := by
    intro path hm hp
    refine ha path (mem_attemptArea hm) ?_
    simp only [List.mem_cons, List.not_mem_nil, or_false, not_or]
    exact ⟨fun he => hp (by simp [pendings, he]), fun he => image_notMem hnd (he ▸ hm)⟩
  refine ⟨h.restorable.pending, h.restorable.backups, ?_, ?_, .inr ⟨rfl, hi, ?_, ?_, ?_⟩⟩
  · intro path hm hp hb
    rw [hkeep path hm hp]
    exact h.restorable.rest path hm hp hb
  · rw [ha _ (by simp [attemptArea]), h.restorable.symbols]
    simp only [List.mem_cons, List.not_mem_nil, or_false, not_or]
    constructor <;> intro he <;> simp [attemptArea, temporaries, pendings, he] at hnd
  · intro hb
    have hs : (before paths.image).isSome := by
      simp only [madeBackups, List.mem_filter] at hb
      exact hb.2
    refine ⟨hs, ?_⟩
    rw [hkeep _ (by simp [temporaries, backups]) (copy_notMem_pendings hnd), h.copy hs]
  · intro hb
    simpa [madeBackups, backups] using hb
  · intro hb
    simp only [madeBackups, List.mem_filter] at hb
    exact hb.2

/-- With six different paths, both pending files are moved to their places, or none, or the image alone. -/
theorem installs_steps {made : List (Path × Path)} (hnd : (attemptArea paths tag).Nodup)
    (himage : held s (paths.image.sibling "pending" tag) = some written.image)
    (hsymbols : held s (paths.symbols.sibling "pending" tag) = some written.symbols) :
    Ensures (((pendings paths tag).zip [paths.image, paths.symbols]).foldlM (install fs)
        { pending := pendings paths tag, backups := made }) s
      (fun progress s' => progress.backups = made ∧
        AgreeExcept (attemptArea paths tag) (pendings paths tag ++ [paths.image, paths.symbols]) (held s) (held s') ∧
        held s' paths.image = some written.image ∧ held s' paths.symbols = some written.symbols ∧
        ∀ path ∈ pendings paths tag, held s' path = none)
      (fun interruption s' =>
        interruption.progress = { pending := pendings paths tag, backups := made } ∧
          AgreeExcept (attemptArea paths tag) [] (held s) (held s') ∨
        interruption.progress = { pending := pendings paths tag, backups := made, installed := [paths.image] } ∧
          AgreeExcept (attemptArea paths tag) [paths.image.sibling "pending" tag, paths.image] (held s) (held s') ∧
          held s' paths.image = some written.image) := by
  have hdis := hnd
  simp only [attemptArea, temporaries, pendings, backups, List.map_cons, List.map_nil, List.cons_append,
    List.nil_append, List.nodup_cons, List.mem_cons, List.not_mem_nil, or_false, not_or] at hdis
  obtain ⟨⟨his, hipi, hips, -⟩, ⟨hspi, hsps, -⟩, ⟨hpp, -⟩, -⟩ := hdis
  simp only [pendings, List.zip_cons_cons, List.zip_nil_right, List.foldlM_cons, List.foldlM_nil]
  refine Ensures.bind ((install_ensures law (by simp [attemptArea, temporaries, pendings])
    (by simp [attemptArea]) (Ne.symm hipi)).mono (fun _ _ h => h) fun _ _ h => .inl h) ?_
  rintro progress s₁ ⟨rfl, ha, -, hi, hgone⟩
  rw [himage] at hi
  have hsymbols₁ : held s₁ (paths.symbols.sibling "pending" tag) = some written.symbols := by
    rw [ha _ (by simp [attemptArea, temporaries, pendings]) (by simp [Ne.symm hpp, Ne.symm hips]), hsymbols]
  refine Ensures.bind ((install_ensures law (by simp [attemptArea, temporaries, pendings])
    (by simp [attemptArea]) (Ne.symm hsps)).mono (fun _ _ h => h) ?_) ?_
  · rintro interruption s' ⟨hp, ha'⟩
    refine .inr ⟨hp, ha.trans (ha'.mono (List.nil_subset _)), ?_⟩
    rw [ha' _ (by simp [attemptArea]) List.not_mem_nil, hi]
  · rintro progress s₂ ⟨rfl, ha', -, hs, hgone'⟩
    refine Ensures.pure ⟨rfl, (ha.mono (by simp)).trans (ha'.mono (by simp)), ?_, hs.trans hsymbols₁, ?_⟩
    · rw [ha' _ (by simp [attemptArea]) (by simp [his, hips]), hi]
    · intro path hm
      rcases List.mem_pair.mp hm with rfl | rfl
      · rw [ha' _ (by simp [attemptArea, temporaries, pendings]) (by simp [hpp, Ne.symm hspi]), hgone]
      · exact hgone'

/-- With six different paths, both files are installed, or the attempt stops where it can be undone. -/
theorem installs_ensures {before : Holdings} (hnd : (attemptArea paths tag).Nodup)
    (h : Prepared paths written tag before (held s)) :
    Ensures (((pendings paths tag).zip [paths.image, paths.symbols]).foldlM (install fs)
        { pending := pendings paths tag, backups := madeBackups paths tag before }) s
      (fun progress s' => progress.backups = madeBackups paths tag before ∧
        held s' paths.image = some written.image ∧ held s' paths.symbols = some written.symbols ∧
        ∀ path ∈ pendings paths tag, held s' path = none)
      (fun interruption s' => Restorable paths written tag before interruption.progress (held s')) := by
  apply (installs_steps law hnd h.image h.symbols).mono
  · exact fun _ _ h => ⟨h.1, h.2.2⟩
  · rintro interruption s' (⟨hp, ha⟩ | ⟨hp, ha, hi⟩)
    · exact hp ▸ h.restorable.congr ha
    · exact hp ▸ h.install_image hnd ha hi

/-- A folder cannot be replaced, so nothing is installed at a path without a file name. -/
theorem installs_ensures_of_folder {before : Holdings} {progress : Progress}
    (hf : paths.image.fileName? = none) (hne : paths.image.sibling "pending" tag ≠ paths.image)
    (hi : progress.installed = []) (h : Restorable paths written tag before progress (held s)) :
    Ensures (((pendings paths tag).zip [paths.image, paths.symbols]).foldlM (install fs) progress) s
      (fun _ _ => False)
      (fun interruption s' => Restorable paths written tag before interruption.progress (held s') ∧
        interruption.progress.installed = []) := by
  simp only [pendings, List.zip_cons_cons, List.zip_nil_right, List.foldlM_cons, List.foldlM_nil]
  refine Ensures.bind ((install_ensures law (by simp [attemptArea, temporaries, pendings])
    (by simp [attemptArea]) hne).mono (fun _ _ h => h) ?_) ?_
  · rintro interruption s' ⟨hp, ha⟩
    rw [hp]
    exact ⟨h.congr ha, hi⟩
  · rintro progress' s₁ ⟨-, -, hs, ht, -⟩
    rw [law.folder (by simp [attemptArea]) hf] at ht
    simp [← ht] at hs

omit law in
theorem replace_eq (fs : FileSystem σ) (paths : PublishedPaths) (written : Image.Written) (tag : String) :
    replace fs paths written tag = prepare fs paths written tag >>= fun progress =>
      (progress.pending.zip [paths.image, paths.symbols]).foldlM (install fs) progress := by
  simp only [replace, prepare, bind_assoc, pure_bind]

/-- Before anything is installed, an attempt only touches its own files. In the end the pending files
hold the new pair and the copy of the image what the image held. -/
theorem prepare_steps (himage : paths.image ∉ temporaries paths tag)
    (hsymbols : paths.symbols ∉ temporaries paths tag) :
    Ensures (prepare fs paths written tag) s
      (fun progress s' => progress = ⟨pendings paths tag, madeBackups paths tag (held s), []⟩ ∧
        AgreeExcept (attemptArea paths tag)
          (pendings paths tag ++ (madeBackups paths tag (held s)).map (·.1)) (held s) (held s') ∧
        ((temporaries paths tag).Nodup →
          held s' (paths.image.sibling "pending" tag) = some written.image ∧
          held s' (paths.symbols.sibling "pending" tag) = some written.symbols ∧
          ∀ backup ∈ madeBackups paths tag (held s), held s' backup.1 = held s backup.2))
      (fun interruption s' => ∃ pending made, pending.Sublist (pendings paths tag) ∧
        made.Sublist (backups paths tag) ∧ interruption.progress = ⟨pending, made, []⟩ ∧
        AgreeExcept (attemptArea paths tag) (pending ++ made.map (·.1)) (held s) (held s')) := by
  unfold prepare
  refine Ensures.bind ((writes_ensures law).mono (fun _ _ h => h) ?_) ?_
  · rintro interruption s₁ ⟨pending, hp, he, ha⟩
    exact ⟨pending, [], hp, List.nil_sublist _, he, ha.mono (by simp)⟩
  rintro progress s₁ ⟨rfl, ha₁, hs₁, hi₁⟩
  have hi : held s₁ paths.image = held s paths.image :=
    ha₁ _ (by simp [attemptArea]) fun hm => himage (List.mem_append_left _ hm)
  have hs : held s₁ paths.symbols = held s paths.symbols :=
    ha₁ _ (by simp [attemptArea]) fun hm => hsymbols (List.mem_append_left _ hm)
  refine Ensures.bind ((backups_ensures law himage hsymbols).mono (fun _ _ h => h) ?_) ?_
  · rintro interruption s₂ ⟨made, hm, he, ha₂⟩
    exact ⟨_, made, .refl _, hm, he,
      (ha₁.mono (List.subset_append_left _ _)).trans (ha₂.mono (List.subset_append_right _ _))⟩
  rintro progress s₂ ⟨rfl, ha₂, hcopy⟩
  rw [madeBackups_congr hi hs] at ha₂ hcopy ⊢
  refine (?_ : Ensures _ s₂ (fun _ s₃ => AgreeExcept (attemptArea paths tag) [] (held s₂) (held s₃))
    _).bind ?_
  · rw [Ensures, lift_apply]
    exact law.unload paths.image s₂
  rintro - s₃ ha₃
  refine Ensures.pure ⟨rfl, (ha₁.mono (List.subset_append_left _ _)).trans
    ((ha₂.mono (List.subset_append_right _ _)).trans (ha₃.mono (List.nil_subset _))), fun htemp => ?_⟩
  -- the copies leave the pending files alone
  have hkeep : ∀ path ∈ pendings paths tag, held s₃ path = held s₁ path := by
    intro path hm
    have hp : path ∈ attemptArea paths tag := mem_attemptArea (List.mem_append_left _ hm)
    refine (ha₃ path hp List.not_mem_nil).trans (ha₂ path hp fun hb => ?_)
    exact (List.nodup_append.mp htemp).2.2 path hm path (((madeBackups_sublist _).map _).subset hb) rfl
  have hdis := htemp
  simp only [temporaries, pendings, backups, List.map_cons, List.map_nil, List.cons_append,
    List.nil_append, List.nodup_cons, List.mem_cons, List.not_mem_nil, or_false, not_or] at hdis
  obtain ⟨⟨hpp, -, -⟩, -, hbb, -⟩ := hdis
  refine ⟨?_, ?_, fun backup hm => ?_⟩
  · rw [hkeep _ (by simp [pendings])]
    exact hi₁ hpp
  · rw [hkeep _ (by simp [pendings])]
    exact hs₁
  · have hb := (madeBackups_sublist _).subset hm
    have hcopied : backup.1 ∈ temporaries paths tag := List.mem_append_right _ (List.mem_map_of_mem hb)
    rw [ha₃ _ (mem_attemptArea hcopied) List.not_mem_nil, hcopy hbb backup hm]
    rcases List.mem_pair.mp hb with rfl | rfl
    · exact hi
    · exact hs

/-- Before anything is installed, an attempt can be undone at every point; in the end all is prepared. -/
theorem prepare_ensures (hfresh : ∀ path ∈ temporaries paths tag, held s path = none)
    (himage : paths.image ∉ temporaries paths tag) (hsymbols : paths.symbols ∉ temporaries paths tag) :
    Ensures (prepare fs paths written tag) s
      (fun progress s' => progress = ⟨pendings paths tag, madeBackups paths tag (held s), []⟩ ∧
        Restorable paths written tag (held s) progress (held s') ∧
        ((temporaries paths tag).Nodup → Prepared paths written tag (held s) (held s')))
      (fun interruption s' => Restorable paths written tag (held s) interruption.progress (held s') ∧
        interruption.progress.installed = []) := by
  apply (prepare_steps law himage hsymbols).mono
  · rintro progress s' ⟨rfl, ha, hprepared⟩
    have hr : Restorable paths written tag (held s) ⟨pendings paths tag, madeBackups paths tag (held s), []⟩
        (held s') := restorable_of_agree hfresh himage hsymbols (.refl _) (madeBackups_sublist _) ha
    refine ⟨rfl, hr, fun htemp => ?_⟩
    obtain ⟨hi, hs, hcopy⟩ := hprepared htemp
    refine ⟨hr, hi, hs, fun hsome => hcopy (paths.image.sibling "backup" tag, paths.image) ?_⟩
    rw [madeBackups_eq, List.mem_append, mem_copied]
    exact .inl ⟨rfl, hsome⟩
  · rintro ⟨progress, message⟩ s' ⟨pending, made, hp, hm, rfl, ha⟩
    exact ⟨restorable_of_agree hfresh himage hsymbols hp hm ha, rfl⟩

/-- Up to the installation an attempt can be undone at every point; what comes then is left open. -/
theorem replace_ensures {done : Progress → σ → Prop} {cut : Interruption → σ → Prop}
    (hfresh : ∀ path ∈ temporaries paths tag, held s path = none)
    (himage : paths.image ∉ temporaries paths tag) (hsymbols : paths.symbols ∉ temporaries paths tag)
    (hcut : ∀ interruption s', Restorable paths written tag (held s) interruption.progress (held s') →
      interruption.progress.installed = [] → cut interruption s')
    (hinstall : ∀ s', Restorable paths written tag (held s)
        ⟨pendings paths tag, madeBackups paths tag (held s), []⟩ (held s') →
      ((temporaries paths tag).Nodup → Prepared paths written tag (held s) (held s')) →
      Ensures (((pendings paths tag).zip [paths.image, paths.symbols]).foldlM (install fs)
        ⟨pendings paths tag, madeBackups paths tag (held s), []⟩) s' done cut) :
    Ensures (replace fs paths written tag) s done cut := by
  rw [replace_eq]
  refine ((prepare_ensures law hfresh himage hsymbols).mono (fun _ _ h => h)
    fun interruption s' h => hcut interruption s' h.1 h.2).bind ?_
  rintro progress s' ⟨rfl, hr, hp⟩
  exact hinstall s' hr hp

/-- The copies of an installed pair are removed, or stay; nothing else changes. -/
theorem forM_remove {made : List (Path × Path)} {s' : σ}
    (hm : ∀ backup ∈ made, backup.1 ∈ attemptArea paths tag)
    (hr : (made.forM fun backup => exchange.discard (fs.remove backup.1)) s = ((), s')) :
    AgreeExcept (attemptArea paths tag) (made.map (·.1)) (held s) (held s') := by
  induction made generalizing s with
  | nil =>
    cases hr
    exact .refl
  | cons backup made ih =>
    rw [List.forM_eq_forM, List.forM_cons, state_bind_apply] at hr
    rcases hd : fs.remove backup.1 s with ⟨result, s₁⟩
    have hs : exchange.discard (fs.remove backup.1) s = ((), s₁) := by
      unfold exchange.discard
      rw [state_bind_apply, hd]
      rfl
    rw [hs] at hr
    have hrest := ih (fun other ho => hm other (by simp [ho])) hr
    obtain ⟨hok, herror⟩ := law.remove (hm backup (by simp)) hd
    by_cases he : result = .ok ()
    · exact ((hok he).1.mono (by simp)).trans (hrest.mono (by simp))
    · exact ((herror he).mono (by simp)).trans (hrest.mono (by simp))

omit law in
theorem exchange_eq (extensions : Extensions) (written : Image.Written) :
    exchange fs extensions paths written tag s =
      match replace fs paths written tag s with
      | (.error interruption, s₁) =>
        (.error (rollBack fs extensions paths.image interruption s₁).1,
          (rollBack fs extensions paths.image interruption s₁).2)
      | (.ok progress, s₁) =>
        (.ok paths, ((progress.backups.forM fun backup => exchange.discard (fs.remove backup.1)) s₁).2) := by
  unfold exchange
  rw [state_bind_apply, ExceptT.run]
  rcases replace fs paths written tag s with ⟨interruption | progress, s₁⟩ <;> rfl

omit law in
/-- Publishing that succeeds is an exchange. -/
theorem exchange_of_publish_ok {extensions : Extensions} {destination : Path} {published : PublishedPaths} {s' : σ}
    (h : publish fs extensions destination written tag s = (.ok published, s')) :
    exchange fs extensions (extensions.paths destination) written tag s = (.ok published, s') := by
  rcases hc : extensions.check with error | ⟨⟩
  · rw [publish_of_error fs destination written tag hc] at h
    cases h
  · rwa [publish_of_ok fs destination written tag hc] at h

/-- Files that are there have names, so different names tell them apart. -/
theorem apart_of_held
    (hsame : paths.image.fileName?.isSome → paths.symbols.fileName?.isSome →
      paths.symbols.same paths.image = false)
    (hi : (held s paths.image).isSome) (hs : (held s paths.symbols).isSome) :
    paths.symbols.same paths.image = false := by
  have hfile : ∀ path ∈ attemptArea paths tag, (held s path).isSome → path.fileName?.isSome := by
    intro path hp hsome
    by_contra hn
    rw [law.folder hp (by simpa using hn)] at hsome
    simp at hsome
  exact hsame (hfile _ (by simp [attemptArea]) hi) (hfile _ (by simp [attemptArea]) hs)

/-- Once both files are installed, the pair is published, whichever of the copies stay. -/
theorem outcome_of_installed {before : Holdings} {s' : σ} (htemp : (temporaries paths tag).Nodup)
    (himage : paths.image ∉ temporaries paths tag) (hsymbols : paths.symbols ∉ temporaries paths tag)
    (hi : held s paths.image = some written.image) (hs : held s paths.symbols = some written.symbols)
    (hp : ∀ path ∈ pendings paths tag, held s path = none)
    (hr : ((madeBackups paths tag before).forM fun backup => exchange.discard (fs.remove backup.1)) s = ((), s')) :
    Outcome paths written tag before (held s') (.ok paths) := by
  have hcopy : ∀ path ∈ (madeBackups paths tag before).map (·.1), path ∈ (backups paths tag).map (·.1) :=
    ((madeBackups_sublist before).map _).subset
  have ha : AgreeExcept (attemptArea paths tag) ((madeBackups paths tag before).map (·.1)) (held s) (held s') := by
    refine forM_remove law (fun backup hm => ?_) hr
    exact mem_attemptArea (List.mem_append_right _ (hcopy _ (List.mem_map_of_mem hm)))
  refine ⟨rfl, ?_, ?_, fun path hm => ?_⟩
  · rw [ha _ (by simp [attemptArea]) fun hm => himage (List.mem_append_right _ (hcopy _ hm)), hi]
  · rw [ha _ (by simp [attemptArea]) fun hm => hsymbols (List.mem_append_right _ (hcopy _ hm)), hs]
  · rw [ha _ (mem_attemptArea (List.mem_append_left _ hm)) fun hb => ?_, hp path hm]
    exact (List.nodup_append.mp htemp).2.2 path hm path (hcopy _ hb) rfl

/-- An exchange that succeeds has installed both files, whatever temporary files there were before. -/
theorem exchange_installs {extensions : Extensions} {published : PublishedPaths} {s' : σ}
    (hnd : (attemptArea paths tag).Nodup)
    (hr : exchange fs extensions paths written tag s = (.ok published, s')) :
    Outcome paths written tag (held s) (held s') (.ok published) := by
  have htemp : (temporaries paths tag).Nodup := (List.nodup_cons.mp (List.nodup_cons.mp hnd).2).2
  have himage : paths.image ∉ temporaries paths tag := fun hm =>
    (List.nodup_cons.mp hnd).1 (List.mem_cons_of_mem _ hm)
  have hsymbols : paths.symbols ∉ temporaries paths tag :=
    (List.nodup_cons.mp (List.nodup_cons.mp hnd).2).1
  have hrun : Ensures (replace fs paths written tag) s
      (fun progress s₁ => progress.backups = madeBackups paths tag (held s) ∧
        held s₁ paths.image = some written.image ∧ held s₁ paths.symbols = some written.symbols ∧
        ∀ path ∈ pendings paths tag, held s₁ path = none) (fun _ _ => True) := by
    rw [replace_eq]
    apply ((prepare_steps law himage hsymbols).mono (fun _ _ h => h) fun _ _ _ => trivial).bind
    rintro progress s₁ ⟨rfl, -, hprepared⟩
    obtain ⟨hi, hs, -⟩ := hprepared htemp
    exact (installs_steps law hnd hi hs).mono (fun _ _ h => ⟨h.1, h.2.2⟩) fun _ _ _ => trivial
  rw [exchange_eq] at hr
  rw [Ensures] at hrun
  rcases hrep : replace fs paths written tag s with ⟨interruption | progress, s₁⟩ <;>
    simp only [hrep] at hr hrun
  · cases hr
  · obtain ⟨hb, hi, hs, hp⟩ := hrun
    rw [hb] at hr
    cases hr
    exact outcome_of_installed law htemp himage hsymbols hi hs hp rfl

/-- Publishing that succeeds has installed both files. -/
theorem publish_installs {extensions : Extensions} {destination : Path} {published : PublishedPaths} {s' : σ}
    (hpaths : extensions.paths destination = paths) (hnd : (attemptArea paths tag).Nodup)
    (hr : publish fs extensions destination written tag s = (.ok published, s')) :
    Outcome paths written tag (held s) (held s') (.ok published) := by
  subst hpaths
  exact exchange_installs law hnd (exchange_of_publish_ok hr)

/-- An exchange under paths that are different from one another, or that lead to a folder. -/
theorem exchange_outcome {extensions : Extensions} {result : Result PublishedPaths} {s' : σ}
    (hfresh : ∀ path ∈ temporaries paths tag, held s path = none)
    (himage : paths.image ∉ temporaries paths tag) (hsymbols : paths.symbols ∉ temporaries paths tag)
    (hapart : (attemptArea paths tag).Nodup ∧
        (paths.image.fileName?.isSome → paths.symbols.fileName?.isSome →
          paths.symbols.same paths.image = false) ∨
      paths.image = paths.symbols ∧ paths.image.fileName? = none)
    (hr : exchange fs extensions paths written tag s = (result, s')) :
    Outcome paths written tag (held s) (held s') result := by
  rw [exchange_eq] at hr
  rcases hapart with ⟨hnd, hsame⟩ | ⟨heq, hfolder⟩
  · have htemp : (temporaries paths tag).Nodup := (List.nodup_cons.mp (List.nodup_cons.mp hnd).2).2
    have hrun : Ensures (replace fs paths written tag) s _ _ :=
      replace_ensures law hfresh himage hsymbols (fun _ _ h _ => h) fun s₁ _ h =>
        installs_ensures law hnd (h htemp)
    rw [Ensures] at hrun
    rcases hrep : replace fs paths written tag s with ⟨interruption | progress, s₁⟩ <;>
      simp only [hrep] at hr hrun
    · cases hr
      rcases hrun.image with ⟨hi, -⟩ | ⟨hi, -⟩
      · exact rollBack_of_nothing_installed law himage hsymbols (fun _ => htemp) hrun hi rfl
      · exact rollBack_of_image_installed law hnd (apart_of_held law hsame) hrun hi rfl
    · obtain ⟨hb, hi, hs, hp⟩ := hrun
      rw [hb] at hr
      cases hr
      exact outcome_of_installed law htemp himage hsymbols hi hs hp rfl
  · have hrun : Ensures (replace fs paths written tag) s (fun _ _ => False) _ :=
      replace_ensures law hfresh himage hsymbols (fun _ _ h hi => ⟨h, hi⟩) fun s₁ h _ =>
        installs_ensures_of_folder law hfolder
          (fun hm => himage (by rw [← hm]; simp [temporaries, pendings])) rfl h
    rw [Ensures] at hrun
    rcases hrep : replace fs paths written tag s with ⟨interruption | progress, s₁⟩ <;>
      simp only [hrep] at hr hrun
    cases hr
    exact rollBack_of_nothing_installed law himage hsymbols (fun hne => absurd heq hne) hrun.1 hrun.2 rfl

end Attempt

def stuckPaths : PublishedPaths := (⟨"dll", "pdb"⟩ : Extensions).paths ⟨"Game"⟩

end HotPatch.Publish
