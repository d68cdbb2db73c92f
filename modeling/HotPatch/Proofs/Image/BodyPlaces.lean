import HotPatch.Proofs.Image.Layout
import HotPatch.Proofs.Image.Symbols

/-!
# Where bodies are

Bodies are laid out one after another, each from a multiple of four on. Tokens
that tell methods apart lead to the offset of the right body, and a method
without a body is given an offset at which no body can be.
-/

namespace HotPatch

theorem Bytes.slice?_append (front middle back : Bytes) :
    (front ++ (middle ++ back)).slice? front.length (front.length + middle.length) = some middle := by
  have hbounds : front.length ≤ front.length + middle.length ∧
      front.length + middle.length ≤ (front ++ (middle ++ back)).length := by
    simp only [List.length_append]
    omega
  rw [slice?, if_pos hbounds, List.drop_left, Nat.add_sub_cancel_left, List.take_left]

namespace Image

/-- What the row of a method says about its body, given the section of bodies. -/
structure BodyAt (bodies : Bytes) (method : MethodDef) (offset : Nat) : Prop where
  absent : offset = WriteTables.noBody ↔ method.body = none
  present : ∀ body, method.body = some body → offset % 4 = 0 ∧ ∃ encoded, body.encode = .ok encoded ∧
    bodies.slice? offset (offset + encoded.bytes.length) = some encoded.bytes

variable {module : Module} {bodies : Bodies} {token : Token} {method : MethodDef} {encoded : EncodedBody}

section Encoding

/-- What is encoded is the body of a method. -/
theorem body_of_mem_encodeBodies (hb : encodeBodies module = .ok bodies) (hm : (token, encoded) ∈ bodies) :
    ∃ method, (token, method) ∈ module.methodRows ∧ method.body.isSome := by
  obtain ⟨values, hv, hbodies⟩ := bind_eq_ok.mp hb
  cases hbodies
  obtain ⟨value, hvalue, rfl⟩ := List.mem_filterMap.mp hm
  obtain ⟨⟨other, method⟩, hr, he⟩ := exists_of_mem_mapM hv hvalue
  dsimp only at he
  rcases hbody : method.body with - | body
  · rw [encodeBody_of_none hbody] at he
    cases he
  · obtain ⟨bytes, -, heq⟩ := (encodeBody_eq_ok hbody).mp he
    cases heq
    exact ⟨method, hr, by rw [hbody]; rfl⟩

/-- The body of each method is encoded. -/
theorem exists_mem_encodeBodies {body : Body} (hb : encodeBodies module = .ok bodies)
    (hr : (token, method) ∈ module.methodRows) (hbody : method.body = some body) :
    ∃ encoded, body.encode = .ok encoded ∧ (token, encoded) ∈ bodies := by
  obtain ⟨values, hv, hbodies⟩ := bind_eq_ok.mp hb
  cases hbodies
  have hrows : List.Forall₂ (fun value row => encodeBody row.1 row.2 = .ok value) values module.methodRows :=
    (mapM_eq_ok.mp hv).flip
  obtain ⟨value, hm, he⟩ := exists_of_mem_forall₂ hrows hr
  obtain ⟨encoded, hencoded, rfl⟩ := (encodeBody_eq_ok hbody).mp he
  exact ⟨encoded, hencoded, List.mem_filterMap.mpr ⟨_, hm, rfl⟩⟩

/-- Bodies keep the order of their methods. -/
theorem map_fst_encodeBodies (hb : encodeBodies module = .ok bodies) :
    (bodies.map Prod.fst).Sublist module.methodTokens := by
  obtain ⟨values, hv, hbodies⟩ := bind_eq_ok.mp hb
  cases hbodies
  have hrows : ∀ {rows : List (Token × MethodDef)} {values},
      List.Forall₂ (fun row value => encodeBody row.1 row.2 = .ok value) rows values →
      ((values.filterMap id).map Prod.fst).Sublist (rows.map Prod.fst) := by
    intro rows values hall
    induction hall with
    | nil => exact .slnil
    | @cons row value rows values hfirst _ ih =>
      rcases hbody : row.2.body with - | body
      · rw [encodeBody_of_none hbody] at hfirst
        cases hfirst
        exact ih.cons _
      · obtain ⟨bytes, -, rfl⟩ := (encodeBody_eq_ok hbody).mp hfirst
        exact ih.cons_cons row.1
  rw [← Module.map_fst_methodRows]
  exact hrows (mapM_eq_ok.mp hv)

theorem nodup_encodeBodies (hown : module.OwnsTokens) (hb : encodeBodies module = .ok bodies) :
    (bodies.map Prod.fst).Nodup := by
  refine (map_fst_encodeBodies hb).nodup ((Module.methodTokens_increasing hown).imp ?_)
  rintro first _ hlt rfl
  exact Nat.lt_irrefl _ hlt

end Encoding

section Laying

variable {start : Nat} {bytes : Bytes} {offsets : List (Token × Nat)}

theorem map_fst_layBodies (h : layBodies start bodies = .ok (bytes, offsets)) :
    offsets.map Prod.fst = bodies.map Prod.fst := by
  induction bodies generalizing start bytes offsets with
  | nil =>
    cases h
    rfl
  | cons body bodies ih =>
    rw [layBodies] at h
    split_ifs at h
    · obtain ⟨⟨rest, more⟩, hr, h⟩ := bind_eq_ok.mp h
      cases h
      rw [List.map_cons, List.map_cons, ih hr]
    · cases h

/-- A body is found behind whatever stands in front of the bodies. -/
theorem slice?_layBodies {front : Bytes} (h : layBodies start bodies = .ok (bytes, offsets))
    (hfront : front.length = start) (haligned : start % 4 = 0) (hunique : (bodies.map Prod.fst).Nodup)
    (hm : (token, encoded) ∈ bodies) : ∃ offset, offsets.lookup token = some offset ∧ offset < sizeLimit ∧
      offset % 4 = 0 ∧ (front ++ bytes).slice? offset (offset + encoded.bytes.length) = some encoded.bytes := by
  induction bodies generalizing start front bytes offsets with
  | nil => cases hm
  | cons body bodies ih =>
    rw [layBodies] at h
    split_ifs at h with hlt
    · obtain ⟨⟨rest, more⟩, hr, h⟩ := bind_eq_ok.mp h
      cases h
      rw [List.map_cons, List.nodup_cons] at hunique
      rcases List.mem_cons.mp hm with rfl | hm
      · refine ⟨start, by rw [List.lookup_cons, beq_self_eq_true], hlt, haligned, ?_⟩
        rw [Bytes.padToFour, List.append_assoc, ← hfront]
        exact Bytes.slice?_append front encoded.bytes _
      · have hne : (token == body.1) = false := by
          rw [beq_eq_false_iff_ne]
          rintro rfl
          exact hunique.1 (List.mem_map.mpr ⟨_, hm, rfl⟩)
        have hlength : (front ++ body.2.bytes.padToFour 0).length = start + (body.2.bytes.padToFour 0).length := by
          rw [List.length_append, hfront]
        have hnext : (start + (body.2.bytes.padToFour 0).length) % 4 = 0 := by
          have hpad := Bytes.alignFour_mod body.2.bytes.length
          rw [length_padToFour]
          omega
        obtain ⟨offset, hl, hbound, hmod, hslice⟩ := ih hr hlength hnext hunique.2 hm
        rw [List.append_assoc] at hslice
        exact ⟨offset, by rw [List.lookup_cons, hne]; exact hl, hbound, hmod, hslice⟩
    · cases h

end Laying

/-- Each method is given the place of its body. -/
theorem Layout.Made.bodyAt {layout : Layout} (h : layout.Made module bodies) (hown : module.OwnsTokens)
    (hb : encodeBodies module = .ok bodies) (hr : (token, method) ∈ module.methodRows) :
    layout.bodyOffset token < sizeLimit ∧ BodyAt layout.bodies method (layout.bodyOffset token) := by
  rcases hbody : method.body with - | body
  · have hnone : layout.offsets.lookup token = none := by
      rw [List.lookup_eq_none_iff]
      rintro ⟨other, offset⟩ ho
      rw [bne_iff_ne]
      rintro rfl
      have hkey := List.mem_map_of_mem (f := Prod.fst) ho
      rw [map_fst_layBodies h.bodies] at hkey
      obtain ⟨⟨_, encoded⟩, hm, rfl⟩ := List.mem_map.mp hkey
      obtain ⟨found, hf, hsome⟩ := body_of_mem_encodeBodies hb hm
      have hsame : found = method := Option.some.inj ((hown _ hf).symm.trans (hown _ hr))
      rw [hsame, hbody] at hsome
      cases hsome
    have hoffset : layout.bodyOffset token = WriteTables.noBody := by rw [Layout.bodyOffset, hnone, Option.getD_none]
    rw [hoffset]
    refine ⟨by decide, ⟨fun _ => hbody, fun _ => rfl⟩, fun body hsome => ?_⟩
    rw [hbody] at hsome
    cases hsome
  · obtain ⟨encoded, he, hm⟩ := exists_mem_encodeBodies hb hr hbody
    obtain ⟨offset, hl, hlt, hmod, hslice⟩ :=
      @slice?_layBodies _ _ _ _ _ _ [] h.bodies rfl rfl (nodup_encodeBodies hown hb) hm
    have hoffset : layout.bodyOffset token = offset := by rw [Layout.bodyOffset, hl, Option.getD_some]
    rw [hoffset]
    refine ⟨hlt, ⟨fun hnone => ?_, fun hnone => ?_⟩, fun other hsome => ?_⟩
    · rw [hnone] at hmod
      cases hmod
    · rw [hnone] at hbody
      cases hbody
    · rw [hbody, Option.some.injEq] at hsome
      subst hsome
      exact ⟨hmod, encoded, he, hslice⟩

end Image
end HotPatch
