import QJazz.Json.Basic

/-! `jsonMerge` is the merge patch of RFC 7396, and `overlay` lays one value over another and
removes nothing. -/
namespace QJazz.Json
open List

def fields : Option Json → List (String × Json)
  | some (.obj items) => items
  | _ => []

def isObj : Json → Bool
  | .obj _ => true
  | _ => false

def valueAt : List String → Option Json → Option Json
  | [], v => v
  | k :: path, v => valueAt path ((fields v).lookup k)

variable {k : String} {path : List String} {v w doc patch : Json} {old : Option Json}

@[simp] lemma fields_obj {items : List (String × Json)} : fields (some (.obj items)) = items := rfl

@[simp] lemma fields_none : fields none = [] := rfl

lemma fields_of_not_isObj (h : v.isObj = false) : fields (some v) = [] := by
  cases v with
  | obj i => cases h
  | null | bool _ | num _ | str _ | arr _ => rfl

lemma exists_obj (h : v.isObj) : ∃ items, v = .obj items := by
  cases v with
  | obj items => exact ⟨items, rfl⟩
  | null | bool _ | num _ | str _ | arr _ => cases h

@[simp] lemma valueAt_nil : valueAt [] old = old := rfl

@[simp] lemma valueAt_cons : valueAt (k :: path) old = valueAt path ((fields old).lookup k) := rfl

@[simp] lemma valueAt_none : valueAt path none = none := by
  induction path with
  | nil => rfl
  | cons k path ih => exact ih

lemma valueAt_append {p : List String} :
    valueAt (path ++ p) old = valueAt p (valueAt path old) := by
  induction path generalizing old with
  | nil => rfl
  | cons k path ih => exact ih

/-- What the value holds on the way to the end of the path are objects. -/
def Unblocked : List String → Json → Prop
  | [], _ => True
  | k :: path, v => v.isObj = true ∧ ∀ w, (fields (some v)).lookup k = some w → Unblocked path w

section Dictionary
variable {V : Type*} {j : String} {x : V} {d : List (String × V)}

def eraseKey (k : String) (d : List (String × V)) : List (String × V) := d.filter fun item => item.1 ≠ k

lemma lookup_eq_none (h : k ∉ d.map Prod.fst) : d.lookup k = none := by
  rw [lookup_eq_none_iff]
  intro i hi
  rw [bne_iff_ne]
  rintro rfl
  exact h (List.mem_map_of_mem hi)

lemma notMem_of_lookup (h : d.lookup k = none) : k ∉ d.map Prod.fst := by
  rw [lookup_eq_none_iff] at h
  intro hm
  obtain ⟨i, hi, rfl⟩ := List.mem_map.1 hm
  simpa using h i hi

lemma mem_of_lookup (h : d.lookup k = some x) : (k, x) ∈ d := by
  induction d with
  | nil => simp at h
  | cons i d ih =>
    obtain ⟨j, y⟩ := i
    by_cases hj : k = j
    · subst hj
      simp only [lookup_cons, beq_self_eq_true, Option.some.injEq] at h
      rw [h]
      exact mem_cons_self
    · rw [lookup_cons, beq_false_of_ne hj] at h
      exact mem_cons_of_mem _ (ih h)

@[simp] lemma lookup_eraseKey_self : (eraseKey k d).lookup k = none := by
  apply lookup_eq_none
  simp [eraseKey]

lemma lookup_eraseKey_ne (h : j ≠ k) : (eraseKey k d).lookup j = d.lookup j := by
  induction d with
  | nil => rfl
  | cons t d ih =>
    obtain ⟨i, y⟩ := t
    by_cases hi : i = k
    · subst hi
      rw [eraseKey, filter_cons_of_neg (by simp), lookup_cons, beq_false_of_ne h]
      exact ih
    · rw [eraseKey, filter_cons_of_pos (by simpa using hi), lookup_cons, lookup_cons]
      rw [eraseKey] at ih
      rw [ih]

lemma map_fst_setKey_subset : ∀ i ∈ (setKey k x d).map Prod.fst, i = k ∨ i ∈ d.map Prod.fst := by
  intro i hi
  obtain ⟨t, ht, rfl⟩ := List.mem_map.1 hi
  rcases mem_setKey ht with rfl | hm
  · exact .inl rfl
  · exact .inr (List.mem_map_of_mem hm)

lemma nodup_setKey (h : (d.map Prod.fst).Nodup) : ((setKey k x d).map Prod.fst).Nodup := by
  induction d with
  | nil => simp [setKey]
  | cons i d ih =>
    obtain ⟨j, y⟩ := i
    rw [map_cons, nodup_cons] at h
    by_cases hj : j = k
    · subst hj
      rw [setKey, if_pos rfl, map_cons, nodup_cons]
      exact h
    · rw [setKey, if_neg hj, map_cons, nodup_cons]
      refine ⟨fun hm => ?_, ih h.2⟩
      exact (map_fst_setKey_subset j hm).elim hj h.1

end Dictionary

section WellFormed

lemma wellFormedFields_iff {i : List (String × Json)} :
    wellFormedFields i ↔ ∀ t ∈ i, t.2.wellFormed = true := by
  induction i with
  | nil => simp [wellFormedFields]
  | cons t i ih => simp [wellFormedFields, ih]

lemma wellFormed_obj_iff {i : List (String × Json)} : (obj i).wellFormed ↔
    (i.map Prod.fst).Nodup ∧ ∀ t ∈ i, t.2.wellFormed = true := by
  rw [wellFormed, Bool.and_eq_true, decide_eq_true_eq, wellFormedFields_iff]

lemma wellFormed_of_lookup {i : List (String × Json)} (h : (obj i).wellFormed)
    (hk : i.lookup k = some v) : v.wellFormed = true :=
  (wellFormed_obj_iff.1 h).2 (k, v) (mem_of_lookup hk)

lemma wellFormed_valueAt (h : v.wellFormed) (hw : valueAt path (some v) = some w) :
    w.wellFormed = true := by
  induction path generalizing v with
  | nil =>
    cases hw
    exact h
  | cons k path ih =>
    rw [valueAt_cons] at hw
    cases hk : (fields (some v)).lookup k with
    | none => simp [hk] at hw
    | some x =>
      rw [hk] at hw
      cases v with
      | obj i => exact ih (wellFormed_of_lookup h hk) hw
      | null | bool _ | num _ | str _ | arr _ => cases hk

lemma wellFormed_setKey {t : List (String × Json)} (h : (obj t).wellFormed)
    (hv : v.wellFormed) : (obj (setKey k v t)).wellFormed = true := by
  rw [wellFormed_obj_iff] at h ⊢
  refine ⟨nodup_setKey h.1, ?_⟩
  have ht := h.2
  clear h
  induction t with
  | nil => simpa [setKey] using hv
  | cons e t ih =>
    obtain ⟨j, y⟩ := e
    rw [setKey]
    split
    · intro e hm
      rcases mem_cons.1 hm with rfl | hm
      · exact hv
      · exact ht e (mem_cons_of_mem _ hm)
    · intro e hm
      rcases mem_cons.1 hm with rfl | hm
      · exact ht _ mem_cons_self
      · exact ih (fun i hi => ht i (mem_cons_of_mem _ hi)) e hm

lemma wellFormed_eraseKey {i : List (String × Json)} (h : (obj i).wellFormed) :
    (obj (eraseKey k i)).wellFormed = true := by
  rw [wellFormed_obj_iff] at h ⊢
  exact ⟨h.1.sublist (filter_sublist.map _), fun t hm =>
    h.2 t (mem_of_mem_filter hm)⟩

lemma wellFormed_fields (h : ∀ v, old = some v → v.wellFormed) :
    (obj (fields old)).wellFormed = true := by
  cases old with
  | none => rfl
  | some v =>
    cases v with
    | obj i => exact h _ rfl
    | null | bool _ | num _ | str _ | arr _ => rfl

end WellFormed

section MergePatch

mutual
def jsonMerge (doc : Option Json) : Json → Json
  | .obj patch => .obj (mergeFields (fields doc) patch)
  | v => v
termination_by structural v => v

def mergeFields (map : List (String × Json)) : List (String × Json) → List (String × Json)
  | [] => map
  | (k, v) :: rest =>
    mergeFields (if v = .null then eraseKey k map else setKey k (jsonMerge (map.lookup k) v) map) rest
termination_by structural patch => patch
end

def mergedItem (old : Option Json) (v : Json) : Option Json :=
  if v = .null then none else some (jsonMerge old v)

lemma jsonMerge_of_not_isObj (h : v.isObj = false) : jsonMerge old v = v := by
  cases v with
  | obj i => cases h
  | null | bool _ | num _ | str _ | arr _ => simp only [jsonMerge]

lemma jsonMerge_obj {i : List (String × Json)} :
    jsonMerge old (.obj i) = .obj (mergeFields (fields old) i) := by
  rw [jsonMerge]

lemma lookup_mergeFields {map i : List (String × Json)} (hd : (i.map Prod.fst).Nodup) :
    (mergeFields map i).lookup k = match i.lookup k with
      | none => map.lookup k
      | some v => mergedItem (map.lookup k) v := by
  induction i generalizing map with
  | nil =>
    rw [mergeFields]
    rfl
  | cons t i ih =>
    obtain ⟨j, v⟩ := t
    rw [map_cons, nodup_cons] at hd
    rw [mergeFields, ih hd.2]
    by_cases hk : k = j
    · subst hk
      rw [lookup_eq_none hd.1]
      simp only [lookup_cons, beq_self_eq_true, mergedItem]
      by_cases hv : v = .null
      · rw [if_pos hv, if_pos hv, lookup_eraseKey_self]
      · rw [if_neg hv, if_neg hv, lookup_setKey_self]
    · have ho : (if v = .null then eraseKey j map
          else setKey j (jsonMerge (map.lookup j) v) map).lookup k = map.lookup k := by
        split
        · exact lookup_eraseKey_ne hk
        · exact lookup_setKey_ne hk
      rw [ho, lookup_cons, beq_false_of_ne hk]

mutual
lemma wellFormed_jsonMerge : (v : Json) → (old : Option Json) → v.wellFormed →
    (∀ w, old = some w → w.wellFormed) → (jsonMerge old v).wellFormed
  | .obj items, old, hv, hold => by
    rw [jsonMerge_obj]
    exact wellFormed_mergeFields items _ (wellFormed_obj hv).2 (wellFormed_fields hold)
  | .arr items, _, hv, _ => by rwa [jsonMerge_of_not_isObj rfl]
  | .null, _, _, _ => by rw [jsonMerge_of_not_isObj rfl]; rfl
  | .bool _, _, _, _ => by rw [jsonMerge_of_not_isObj rfl]; rfl
  | .num _, _, _, _ => by rw [jsonMerge_of_not_isObj rfl]; rfl
  | .str _, _, _, _ => by rw [jsonMerge_of_not_isObj rfl]; rfl
termination_by structural v => v

lemma wellFormed_mergeFields : (i map : List (String × Json)) → wellFormedFields i →
    (obj map).wellFormed → (obj (mergeFields map i)).wellFormed
  | [], map, _, hm => by rwa [mergeFields]
  | (k, v) :: rest, map, hi, hm => by
    simp only [wellFormedFields, Bool.and_eq_true] at hi
    rw [mergeFields]
    apply wellFormed_mergeFields rest _ hi.2
    split
    · exact wellFormed_eraseKey hm
    · exact wellFormed_setKey hm
        (wellFormed_jsonMerge v _ hi.1 fun w hw => wellFormed_of_lookup hm hw)
termination_by structural i => i
end

/-- Where the patch holds neither a null nor an object, the merge leaves its value; where it holds
nothing, the value that was there. -/
lemma valueAt_jsonMerge (old : Option Json) (hw : patch.wellFormed)
    (hopen : patch.Unblocked path)
    (hl : ∀ v, valueAt path (some patch) = some v → v ≠ .null ∧ v.isObj = false) :
    valueAt path (some (jsonMerge old patch)) =
      (valueAt path (some patch)).or (valueAt path old) := by
  induction path generalizing old patch with
  | nil =>
    rw [jsonMerge_of_not_isObj (hl patch rfl).2]
    rfl
  | cons k path ih =>
    obtain ⟨i, rfl⟩ := exists_obj hopen.1
    rw [jsonMerge_obj, valueAt_cons, valueAt_cons, valueAt_cons, fields_obj, fields_obj,
      lookup_mergeFields (wellFormed_obj_iff.1 hw).1]
    cases hk : i.lookup k with
    | none => rw [valueAt_none, Option.none_or]
    | some v =>
      have hn : v ≠ .null := by
        cases path with
        | nil => exact (hl v hk).1
        | cons j path =>
          rintro rfl
          cases (hopen.2 _ hk).1
      simp only [mergedItem, if_neg hn]
      apply ih _ (wellFormed_of_lookup hw hk) (hopen.2 v hk)
      intro x hx
      apply hl x
      rw [valueAt_cons, fields_obj, hk]
      exact hx

end MergePatch

section Overlay

mutual
/-- The update of a nested mapping: objects on both sides are merged, otherwise the value on top
wins. -/
def overlay : Json → Json → Json
  | .obj under, .obj upper => .obj (overlayFields under upper ++ upper.filter fun item =>
      (under.lookup item.1).isNone)
  | _, upper => upper
termination_by structural under => under

def overlayFields : List (String × Json) → List (String × Json) → List (String × Json)
  | [], _ => []
  | (k, u) :: rest, upper =>
    (k, match upper.lookup k with | some v => overlay u v | none => u) :: overlayFields rest upper
termination_by structural under => under
end

def laidOver : Option Json → Json → Json
  | none, v => v
  | some u, v => overlay u v

lemma overlay_of_not_isObj (h : v.isObj = false) : overlay w v = v := by
  cases v with
  | obj i => cases h
  | null | bool _ | num _ | str _ | arr _ => cases w <;> rw [overlay] <;> nofun

lemma laidOver_of_not_isObj (h : v.isObj = false) : laidOver old v = v := by
  cases old with
  | none => rfl
  | some u => exact overlay_of_not_isObj h

lemma lookup_overlayFields {n i : List (String × Json)} :
    (overlayFields n i).lookup k = (n.lookup k).map fun u =>
      match i.lookup k with | some v => overlay u v | none => u := by
  induction n with
  | nil =>
    rw [overlayFields]
    rfl
  | cons t n ih =>
    obtain ⟨j, u⟩ := t
    rw [overlayFields, lookup_cons, lookup_cons]
    by_cases hk : k = j
    · subst hk
      simp
    · rw [beq_false_of_ne hk]
      exact ih

lemma overlayFields_fixed {under i : List (String × Json)}
    (h : ∀ k u, (k, u) ∈ under → (i.lookup k = none ∨ i.lookup k = some u ∧ overlay u u = u)) :
    overlayFields under i = under := by
  induction under with
  | nil => rw [overlayFields]
  | cons t under ih =>
    obtain ⟨k, u⟩ := t
    rw [overlayFields, ih fun j w hm => h j w (mem_cons_of_mem _ hm)]
    rcases h k u mem_cons_self with hn | ⟨ho, he⟩
    · rw [hn]
    · rw [ho]
      simp only [he]

lemma overlay_nil {items : List (String × Json)} : overlay (.obj items) (.obj []) = .obj items := by
  rw [overlay, overlayFields_fixed fun k u _ => .inl rfl, filter_nil, append_nil]

mutual
lemma overlay_self : (v : Json) → v.wellFormed → overlay v v = v
  | .obj items, hv => by
    obtain ⟨hd, -⟩ := wellFormed_obj_iff.1 hv
    have hnew : (items.filter fun i => (items.lookup i.1).isNone) = [] := by
      rw [filter_eq_nil_iff]
      intro i hm
      simp [lookup_of_mem hd (show (i.1, i.2) ∈ items from hm)]
    rw [overlay, hnew, append_nil, overlayFields_fixed fun k u hm =>
      .inr ⟨lookup_of_mem hd hm, overlay_self_items items (wellFormed_obj hv).2 (k, u) hm⟩]
  | .null, _ | .bool _, _ | .num _, _ | .str _, _ | .arr _, _ => overlay_of_not_isObj rfl
termination_by structural v => v

lemma overlay_self_items : (i : List (String × Json)) → wellFormedFields i →
    ∀ t ∈ i, overlay t.2 t.2 = t.2
  | [], _ => by simp
  | (k, v) :: rest, h => by
    simp only [wellFormedFields, Bool.and_eq_true] at h
    intro t hm
    rcases mem_cons.1 hm with rfl | ht
    · exact overlay_self v h.1
    · exact overlay_self_items rest h.2 t ht
termination_by structural i => i
end

lemma lookup_filter_of_pos (i : List (String × Json)) (p : String → Bool) (h : p k) :
    (i.filter fun t => p t.1).lookup k = i.lookup k := by
  induction i with
  | nil => rfl
  | cons t i ih =>
    obtain ⟨j, v⟩ := t
    by_cases hk : k = j
    · subst hk
      simp [h]
    · rw [filter_cons]
      split
      · rw [lookup_cons, lookup_cons, beq_false_of_ne hk]
        exact ih
      · rw [ih, lookup_cons, beq_false_of_ne hk]

lemma laidOver_obj (old : Option Json) (i : List (String × Json)) : ∃ res, laidOver old (.obj i) = .obj res ∧
    ∀ k v, i.lookup k = some v → res.lookup k = some (laidOver ((fields old).lookup k) v) := by
  by_cases ho : ∃ n, old = some (.obj n)
  · obtain ⟨n, rfl⟩ := ho
    refine ⟨overlayFields n i ++ i.filter fun t => (n.lookup t.1).isNone,
      by rw [laidOver, overlay], ?_⟩
    intro k v hk
    rw [lookup_append, lookup_overlayFields, fields_obj, hk]
    cases hu : n.lookup k with
    | some u => rfl
    | none =>
      have hnew := lookup_filter_of_pos i (fun j => (n.lookup j).isNone) (k := k) (by simp [hu])
      rw [Option.map_none, Option.none_or, hnew, hk]
      rfl
  · refine ⟨i, ?_, fun k v hk => ?_⟩
    · cases old with
      | none => rfl
      | some u =>
        rw [laidOver, overlay]
        rintro n e rfl
        exact absurd ⟨n, rfl⟩ ho
    · have hf : fields old = [] := by
        cases old with
        | none => rfl
        | some u =>
          cases u with
          | obj n => exact absurd ⟨n, rfl⟩ ho
          | null | bool _ | num _ | str _ | arr _ => rfl
      rw [hf, hk]
      rfl

lemma valueAt_laidOver (h : valueAt path (some v) = some w) :
    valueAt path (some (laidOver old v)) = some (laidOver (valueAt path old) w) := by
  induction path generalizing old v with
  | nil =>
    cases h
    rfl
  | cons k path ih =>
    rw [valueAt_cons] at h
    cases hk : (fields (some v)).lookup k with
    | none => simp [hk] at h
    | some x =>
      cases v with
      | obj i =>
        obtain ⟨res, hr, hl⟩ := laidOver_obj old i
        rw [hk] at h
        rw [hr, valueAt_cons, fields_obj, hl k x hk, ih h, valueAt_cons]
      | null | bool _ | num _ | str _ | arr _ => cases hk

end Overlay

end QJazz.Json
