import QJazz.Json.Basic

/-! `dictMerge` is the recursive merge of a patch into the dumped configuration. -/
namespace QJazz.Config
open List

/-- A parsed JSON document: the parsers on both sides of the pipe build maps with distinct keys. -/
structure Document where
  value : Json
  distinct : value.wellFormed = true
deriving DecidableEq

abbrev Fields := List (String × Json)

inductive Shape where
  | value
  | model (fields : List (String × Shape))

abbrev Model := List (String × Shape)

mutual
/-- The value `dict_merge` leaves under a key whose current value is `old`. -/
def mergeItem (shape : Option Shape) (old : Option Json) : Json → Json
  | .obj patch =>
    match shape, old with
    | some (.model model), some (.obj dct) => .obj (dictMerge model dct patch)
    | _, _ => .obj patch
  | v => v
termination_by structural v => v

def dictMerge (model : Model) (dct : Fields) : Fields → Fields
  | [] => dct
  | (k, v) :: rest =>
    dictMerge model (setKey k (mergeItem (model.lookup k) (dct.lookup k) v) dct) rest
termination_by structural patch => patch
end

variable {model : Model} {dct patch : Fields} {k : String} {v : Json}

@[simp] lemma mergeItem_model : mergeItem (some (.model model)) (some (.obj dct)) (.obj patch) =
      .obj (dictMerge model dct patch) := by
  rw [mergeItem]

lemma mergeItem_replace {s : Option Shape} {old : Option Json}
    (h : ¬∃ model dct, s = some (.model model) ∧ old = some (.obj dct)) :
    mergeItem s old (.obj patch) = .obj patch := by
  rw [mergeItem]
  exact fun model dct hs ho => h ⟨model, dct, hs, ho⟩

lemma lookup_dictMerge_of_notMem (hk : k ∉ patch.map Prod.fst) :
    (dictMerge model dct patch).lookup k = dct.lookup k := by
  induction patch generalizing dct with
  | nil => rw [dictMerge]
  | cons i patch ih =>
    obtain ⟨j, w⟩ := i
    rw [map_cons, mem_cons, not_or] at hk
    rw [dictMerge, ih hk.2, lookup_setKey_ne hk.1]

lemma lookup_dictMerge_of_mem (hd : (patch.map Prod.fst).Nodup) (hk : (k, v) ∈ patch) :
    (dictMerge model dct patch).lookup k = some (mergeItem (model.lookup k) (dct.lookup k) v) := by
  induction patch generalizing dct with
  | nil => simp at hk
  | cons i patch ih =>
    obtain ⟨j, w⟩ := i
    rw [map_cons, nodup_cons] at hd
    rw [dictMerge]
    rcases mem_cons.1 hk with heq | ht
    · obtain ⟨rfl, rfl⟩ := Prod.mk.inj heq
      rw [lookup_dictMerge_of_notMem hd.1, lookup_setKey_self]
    · have hne : k ≠ j := by
        rintro rfl
        exact hd.1 (List.mem_map.2 ⟨(k, v), ht, rfl⟩)
      rw [ih hd.2 ht, lookup_setKey_ne hne]

lemma dictMerge_fixed (h : ∀ k v, (k, v) ∈ patch →
    ∃ w, dct.lookup k = some w ∧ mergeItem (model.lookup k) (some w) v = w) :
    dictMerge model dct patch = dct := by
  induction patch with
  | nil => rw [dictMerge]
  | cons i patch ih =>
    obtain ⟨k, v⟩ := i
    obtain ⟨w, hw, hf⟩ := h k v mem_cons_self
    rw [dictMerge, hw, hf, setKey_of_lookup hw]
    exact ih fun k v hk => h k v (mem_cons_of_mem _ hk)

mutual
lemma mergeItem_self (s : Option Shape) : (v : Json) → v.wellFormed →
    mergeItem s (some v) v = v
  | .obj patch, h => by
    obtain ⟨hd, hf⟩ := Json.wellFormed_obj h
    by_cases hm : ∃ model, s = some (.model model)
    · obtain ⟨model, rfl⟩ := hm
      rw [mergeItem_model, dictMerge_fixed fun k v hk =>
        ⟨v, lookup_of_mem hd hk, mergeItem_self_fields patch hf (k, v) hk _⟩]
    · exact mergeItem_replace fun ⟨model, _, hs, _⟩ => hm ⟨model, hs⟩
  | .null, _ => by rw [mergeItem]; nofun
  | .bool _, _ => by rw [mergeItem]; nofun
  | .num _, _ => by rw [mergeItem]; nofun
  | .str _, _ => by rw [mergeItem]; nofun
  | .arr _, _ => by rw [mergeItem]; nofun
termination_by structural v => v

lemma mergeItem_self_fields : (patch : Fields) → Json.wellFormedFields patch →
    ∀ i ∈ patch, ∀ s, mergeItem s (some i.2) i.2 = i.2
  | [], _ => by simp
  | (k, v) :: rest, h => by
    simp only [Json.wellFormedFields, Bool.and_eq_true] at h
    intro i hm s
    rcases mem_cons.1 hm with rfl | ht
    · exact mergeItem_self s v h.1
    · exact mergeItem_self_fields rest h.2 i ht s
termination_by structural patch => patch
end

mutual
lemma mergeItem_idem (s : Option Shape) (old : Option Json) : (v : Json) → v.wellFormed →
    mergeItem s (some (mergeItem s old v)) v = mergeItem s old v
  | .obj patch, h => by
    obtain ⟨hd, hf⟩ := Json.wellFormed_obj h
    by_cases hm : ∃ model dct, s = some (.model model) ∧ old = some (.obj dct)
    · obtain ⟨model, dct, rfl, rfl⟩ := hm
      rw [mergeItem_model, mergeItem_model, dictMerge_fixed fun k v hk => ⟨_, lookup_dictMerge_of_mem hd hk,
        mergeItem_idem_fields patch hf (k, v) hk _ _⟩]
    · rw [mergeItem_replace hm]
      exact mergeItem_self s _ h
  | .null, _ => by simp only [mergeItem]
  | .bool _, _ => by simp only [mergeItem]
  | .num _, _ => by simp only [mergeItem]
  | .str _, _ => by simp only [mergeItem]
  | .arr _, _ => by simp only [mergeItem]
termination_by structural v => v

lemma mergeItem_idem_fields : (patch : Fields) → Json.wellFormedFields patch →
    ∀ i ∈ patch, ∀ s old, mergeItem s (some (mergeItem s old i.2)) i.2 = mergeItem s old i.2
  | [], _ => by simp
  | (k, v) :: rest, h => by
    simp only [Json.wellFormedFields, Bool.and_eq_true] at h
    intro i hm s old
    rcases mem_cons.1 hm with rfl | ht
    · exact mergeItem_idem s old v h.1
    · exact mergeItem_idem_fields rest h.2 i ht s old
termination_by structural patch => patch
end

/-- `ConfBuilder.update_config` on a builder with a validated configuration and an unchanged model.
A patch that the schema check rejects raises, and the configuration stays. -/
def updateConfig (model : Model) (valid : Fields → Bool) (conf : Fields) (obj : Json) :
    Option Fields :=
  if obj.truthy then
    match obj with
    | .obj patch =>
      let data := dictMerge model conf patch
      if valid data then some data else none
    | _ => none
  else some conf

lemma updateConfig_idem {a : Fields → Bool} {c conf' : Fields} {obj : Json}
    (ho : obj.wellFormed) (h : updateConfig model a c obj = some conf') :
    updateConfig model a conf' obj = some conf' := by
  unfold updateConfig at h ⊢
  by_cases ht : obj.truthy = true
  · rw [if_pos ht] at h ⊢
    cases obj with
    | obj patch =>
      obtain ⟨hd, hf⟩ := Json.wellFormed_obj ho
      simp only [Option.ite_none_right_eq_some, Option.some.injEq] at h ⊢
      obtain ⟨hv, rfl⟩ := h
      rw [dictMerge_fixed fun k v hk => ⟨_, lookup_dictMerge_of_mem hd hk, mergeItem_idem_fields patch hf (k, v) hk _ _⟩]
      exact ⟨hv, rfl⟩
    | null | bool _ | num _ | str _ | arr _ => simp at h
  · rw [if_neg ht]

end QJazz.Config
