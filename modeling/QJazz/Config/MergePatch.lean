import QJazz.Config.Update
import QJazz.Json.Merge

/-! The function `MergePatch` of the RFC, where the target may be undefined, and `json_merge`, which
enters a null under a key that is missing and merges into it in place. -/
namespace QJazz.Json
open List

section Definitions

mutual
/-- `MergePatch(Target, Patch)` of the RFC; a target is undefined where an object has no such name. -/
def mergePatch (target : Option Json) : Json → Json
  | .obj patch => .obj (mergeMembers (fields target) patch)
  | patch => patch
termination_by structural patch => patch

def mergeMembers (target : List (String × Json)) : List (String × Json) → List (String × Json)
  | [] => target
  | (name, value) :: patch =>
    if value = .null then
      if name ∈ target.map Prod.fst then mergeMembers (eraseKey name target) patch
      else mergeMembers target patch
    else mergeMembers (setKey name (mergePatch (target.lookup name) value) target) patch
termination_by structural patch => patch
end

def orInsert (key : String) (value : Json) (map : List (String × Json)) :
    List (String × Json) × Json :=
  match map.lookup key with
  | some old => (map, old)
  | none => (map ++ [(key, value)], value)

mutual
def jsonMergeInto (doc : Json) : Json → Json
  | .obj patch => .obj (mergeInto (fields (some (if doc.isObj then doc else .obj []))) patch)
  | patch => patch
termination_by structural patch => patch

def mergeInto (map : List (String × Json)) : List (String × Json) → List (String × Json)
  | [] => map
  | (key, value) :: patch =>
    if value = .null then mergeInto (eraseKey key map) patch
    else
      let entry := orInsert key .null map
      mergeInto (setKey key (jsonMergeInto entry.2 value) entry.1) patch
termination_by structural patch => patch
end

end Definitions

variable {key : String} {value doc patch : Json} {old : Option Json}
  {map items : List (String × Json)} {path : List String}

lemma eraseKey_of_notMem (h : key ∉ map.map Prod.fst) : eraseKey key map = map := by
  rw [eraseKey, filter_eq_self]
  intro i hi
  rw [decide_eq_true_eq]
  rintro rfl
  exact h (List.mem_map_of_mem hi)

lemma setKey_append (h : key ∉ map.map Prod.fst) :
    setKey key value (map ++ [(key, doc)]) = map ++ [(key, value)] := by
  induction map with
  | nil => simp [setKey]
  | cons i map ih =>
    obtain ⟨j, w⟩ := i
    rw [map_cons, mem_cons, not_or] at h
    rw [cons_append, setKey, if_neg (Ne.symm h.1), ih h.2, cons_append]

lemma setKey_of_notMem (h : key ∉ map.map Prod.fst) : setKey key value map = map ++ [(key, value)] := by
  induction map with
  | nil => rfl
  | cons i map ih =>
    obtain ⟨j, w⟩ := i
    rw [map_cons, mem_cons, not_or] at h
    rw [setKey, if_neg (Ne.symm h.1), ih h.2, cons_append]

lemma setKey_orInsert : setKey key value (orInsert key doc map).1 = setKey key value map := by
  rw [orInsert]
  cases h : map.lookup key with
  | some w => rfl
  | none =>
    have hk := notMem_of_lookup h
    rw [setKey_append hk, setKey_of_notMem hk]

lemma orInsert_snd : (orInsert key value map).2 = (map.lookup key).getD value := by
  rw [orInsert]
  cases map.lookup key <;> rfl

lemma jsonMerge_getD_null : jsonMerge (some (old.getD .null)) patch = jsonMerge old patch := by
  cases patch with
  | obj items =>
    cases old with
    | none | some w => rfl
  | null | bool _ | num _ | str _ | arr _ => rw [jsonMerge_of_not_isObj rfl, jsonMerge_of_not_isObj rfl]

lemma fields_orEmpty : fields (some (if doc.isObj then doc else .obj [])) = fields (some doc) := by
  cases doc <;> rfl

mutual
lemma mergePatch_eq : (patch : Json) → (old : Option Json) → mergePatch old patch = jsonMerge old patch
  | .obj items, old => by rw [mergePatch, jsonMerge, mergeMembers_eq items]
  | .null, _ | .bool _, _ | .num _, _ | .str _, _ | .arr _, _ => by simp only [mergePatch, jsonMerge]
termination_by structural patch => patch

lemma mergeMembers_eq : (items map : List (String × Json)) →
    mergeMembers map items = mergeFields map items
  | [], map => by rw [mergeMembers, mergeFields]
  | (name, value) :: items, map => by
    rw [mergeMembers, mergeFields]
    split
    next hu =>
      split
      · exact mergeMembers_eq items _
      next hn =>
        rw [eraseKey_of_notMem hn]
        exact mergeMembers_eq items map
    · rw [mergePatch_eq value]
      exact mergeMembers_eq items _
termination_by structural items => items
end

mutual
lemma jsonMergeInto_eq : (patch : Json) → (doc : Json) →
    jsonMergeInto doc patch = jsonMerge (some doc) patch
  | .obj items, doc => by rw [jsonMergeInto, jsonMerge, fields_orEmpty, mergeInto_eq items]
  | .null, _ | .bool _, _ | .num _, _ | .str _, _ | .arr _, _ => by simp only [jsonMergeInto, jsonMerge]
termination_by structural patch => patch

lemma mergeInto_eq : (items map : List (String × Json)) → mergeInto map items = mergeFields map items
  | [], map => by rw [mergeInto, mergeFields]
  | (key, value) :: items, map => by
    rw [mergeInto, mergeFields]
    split
    · exact mergeInto_eq items _
    · simp only []
      rw [jsonMergeInto_eq value, orInsert_snd, jsonMerge_getD_null, setKey_orInsert]
      exact mergeInto_eq items _
termination_by structural items => items
end

lemma mergeFields_fixed (h : ∀ k v, (k, v) ∈ items →
      if v = .null then map.lookup k = none else ∃ w, map.lookup k = some w ∧ jsonMerge (some w) v = w) :
    mergeFields map items = map := by
  induction items with
  | nil => rw [mergeFields]
  | cons i items ih =>
    obtain ⟨k, v⟩ := i
    have hh := h k v mem_cons_self
    have hr := ih fun j w he => h j w (mem_cons_of_mem _ he)
    rw [mergeFields]
    split
    next hn =>
      rw [if_pos hn] at hh
      rw [eraseKey_of_notMem (notMem_of_lookup hh), hr]
    next hn =>
      rw [if_neg hn] at hh
      obtain ⟨w, hw, hm⟩ := hh
      rw [hw, hm, setKey_of_lookup hw, hr]

mutual
lemma jsonMerge_jsonMerge : (patch : Json) → patch.wellFormed → (old : Option Json) →
    jsonMerge (some (jsonMerge old patch)) patch = jsonMerge old patch
  | .obj items, hp, old => by
    obtain ⟨hk, -⟩ := wellFormed_obj_iff.1 hp
    have hi := jsonMerge_jsonMerge_items items (wellFormed_obj hp).2
    rw [jsonMerge_obj, jsonMerge_obj, fields_obj]
    congr 1
    apply mergeFields_fixed
    intro k v hm
    rw [lookup_mergeFields hk, lookup_of_mem hk hm]
    split
    next hn => simp only [mergedItem, if_pos hn]
    next hn =>
      simp only [mergedItem, if_neg hn]
      exact ⟨_, rfl, hi (k, v) hm _⟩
  | .null, _, _ | .bool _, _, _ | .num _, _, _ | .str _, _, _ | .arr _, _, _ => by
    rw [jsonMerge_of_not_isObj rfl, jsonMerge_of_not_isObj rfl]
termination_by structural patch => patch

lemma jsonMerge_jsonMerge_items : (items : List (String × Json)) → wellFormedFields items →
    ∀ i ∈ items, ∀ old, jsonMerge (some (jsonMerge old i.2)) i.2 = jsonMerge old i.2
  | [], _ => by simp
  | (k, v) :: items, h => by
    simp only [wellFormedFields, Bool.and_eq_true] at h
    intro i hm
    rcases mem_cons.1 hm with rfl | ht
    · exact jsonMerge_jsonMerge v h.1
    · exact jsonMerge_jsonMerge_items items h.2 i ht
termination_by structural items => items
end

/-- The patch goes along the path with objects, and then has no such name. -/
def Unnamed (path : List String) (patch : Json) : Prop :=
  patch.Unblocked path ∧ valueAt path (some patch) = none

lemma valueAt_jsonMerge_of_unnamed (hp : patch.wellFormed) (h : patch.Unnamed path) :
    valueAt path (some (jsonMerge old patch)) = valueAt path old := by
  rw [valueAt_jsonMerge old hp h.1, h.2, Option.none_or]
  intro v hv
  rw [h.2] at hv
  cases hv

end QJazz.Json

namespace QJazz.Config
open Json

/-- `json_merge` computes `MergePatch`. So a patch has its whole effect the first time, and what it does
not name stays as it was. -/
theorem jsonMergeInto_implements (target patch : Document) :
    jsonMergeInto target.value patch.value = mergePatch (some target.value) patch.value ∧
      jsonMergeInto (jsonMergeInto target.value patch.value) patch.value =
        jsonMergeInto target.value patch.value ∧ ∀ path, patch.value.Unnamed path →
        valueAt path (some (jsonMergeInto target.value patch.value)) =
          valueAt path (some target.value) := by
  simp only [jsonMergeInto_eq, mergePatch_eq]
  exact ⟨trivial, jsonMerge_jsonMerge _ patch.distinct _, fun path =>
    valueAt_jsonMerge_of_unnamed patch.distinct⟩

/-- A null in an object that is new leaves nothing behind. -/
example :
    jsonMergeInto (.obj [("a", .str "b"), ("e", .null)])
        (.obj [("a", .obj [("b", .null), ("c", .obj [("d", .null)])])]) =
      .obj [("a", .obj [("c", .obj [])]), ("e", .null)] := by
  decide

end QJazz.Config
