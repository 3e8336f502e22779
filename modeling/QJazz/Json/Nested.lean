import QJazz.Json.Basic

/-! The objects of a recursive data model hold a list of such objects under a key. -/
namespace QJazz.Json
open List

def itemsAt (key : String) (fields : List (String × Json)) : Option (List Json) :=
  match fields.lookup key with
  | some (.arr items) => some items
  | _ => none

section Fold

variable {β : Type*} (key : String) (node : List (String × Json) → Option (List β) → β) (other : β)

mutual
def fold : Json → β
  | .obj fields => node fields (foldFields fields)
  | .null | .bool _ | .num _ | .str _ | .arr _ => other
termination_by structural v => v

def foldFields : List (String × Json) → Option (List β)
  | [] => none
  | (k, .arr items) :: rest => if key = k then some (foldItems items) else foldFields rest
  | (k, .null) :: rest | (k, .bool _) :: rest | (k, .num _) :: rest | (k, .str _) :: rest
  | (k, .obj _) :: rest => if key = k then none else foldFields rest
termination_by structural fields => fields

def foldItems : List Json → List β
  | [] => []
  | v :: rest => fold v :: foldItems rest
termination_by structural items => items
end

lemma foldItems_eq_map (i : List Json) :
    foldItems key node other i = i.map (fold key node other) := by
  induction i with
  | nil => rfl
  | cons v i ih => rw [foldItems, ih, map_cons]

lemma foldFields_eq_map (fields : List (String × Json)) : foldFields key node other fields =
      (itemsAt key fields).map (List.map (fold key node other)) := by
  induction fields with
  | nil => rfl
  | cons i fields ih =>
    obtain ⟨k, v⟩ := i
    by_cases hk : key = k
    · subst hk
      cases v with
      | arr t => simp [foldFields, itemsAt, foldItems_eq_map]
      | null | bool _ | num _ | str _ | obj _ => simp [foldFields, itemsAt]
    · have hne : (key == k) = false := by simpa using hk
      have hr : itemsAt key ((k, v) :: fields) = itemsAt key fields := by
        rw [itemsAt, lookup_cons, hne]
        rfl
      rw [hr, ← ih]
      cases v <;> simp [foldFields, hk]

lemma fold_obj (f : List (String × Json)) : fold key node other (.obj f) =
      node f ((itemsAt key f).map (List.map (fold key node other))) := by
  rw [fold, foldFields_eq_map]

end Fold

variable {α β γ : Type*} (r : α → Option β) (w : β → γ) (c : α → γ)

lemma exists_mapM_iff (l : List α) : (∃ bs, l.mapM r = some bs ∧ bs.map w = l.map c) ↔
      ∀ a ∈ l, ∃ b, r a = some b ∧ w b = c a := by
  induction l with
  | nil => simp
  | cons a l ih =>
    rw [forall_mem_cons, ← ih, mapM_cons]
    constructor
    · rintro ⟨bs, hbs, hw⟩
      obtain ⟨b, hb, he⟩ := Option.bind_eq_some_iff.1 hbs
      obtain ⟨bs', hbs', heq⟩ := Option.bind_eq_some_iff.1 he
      cases heq
      rw [map_cons, map_cons, List.cons.injEq] at hw
      exact ⟨⟨b, hb, hw.1⟩, bs', hbs', hw.2⟩
    · rintro ⟨⟨b, hb, hw⟩, bs, hbs, hr⟩
      refine ⟨b :: bs, ?_, ?_⟩
      · rw [hb, hbs]
        rfl
      · rw [map_cons, map_cons, hw, hr]

end QJazz.Json
