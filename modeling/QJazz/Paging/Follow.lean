import QJazz.Paging.Filtered
import QJazz.Python.Generator

/-! The pages are slices of a generator from which some items are left out, and a page has a next
one if it keeps as many items as a page can have. -/
namespace QJazz.Paging

open Python

variable {κ ε α β : Type*}

/-- What a client has collected at the end, if it comes to an end within the given number of requests. -/
def follow (get : κ → Except ε (List β × Option κ)) : ℕ → κ → Option (Except ε (List β))
  | 0, _ => none
  | n + 1, link =>
    match get link with
    | .error err => some (.error err)
    | .ok (items, none) => some (.ok items)
    | .ok (items, some next) => (follow get n next).map fun rest => rest.map (items ++ ·)

def slicePage (keep : α → Bool) (limit : ℕ) (items : List (Except ε (Option α))) (k : ℕ) :
    Except ε (List α × Option ℕ) :=
  (islice (k * limit) limit items).map fun page =>
    (page.filter keep, if limit ≤ (page.filter keep).length then some (k + 1) else none)

def Full (keep : α → Bool) (limit : ℕ) (l : List α) (k : ℕ) : Prop :=
  limit ≤ ((slice limit k l).filter keep).length

/-- The client comes to the page and no further, and nothing raises on the way. -/
structure StopsAt (keep : α → Bool) (limit : ℕ) (items : List (Except ε (Option α))) (m : ℕ) :
    Prop where
  full : ∀ k < m, Full keep limit (yielded items) k
  short : ¬ Full keep limit (yielded items) m
  quiet : raises items = true → (m + 1) * limit ≤ (yielded items).length

section Links

variable {ι ε' : Type*} {get : κ → Except ε' (List β × Option κ)}
  {p : ι → Except ε (List β × Option ι)} {link : ι → κ} {g : ε → ε'}

lemma follow_map (h : ∀ i, get (link i) = ((p i).map fun x => (x.1, x.2.map link)).mapError g)
    (n : ℕ) (i : ι) : follow get n (link i) = (follow p n i).map (Except.mapError g) := by
  induction n generalizing i with
  | zero => rfl
  | succ n ih =>
    rw [follow, follow, h]
    cases p i with
    | error err => rfl
    | ok x =>
      obtain ⟨items, _ | next⟩ := x
      · rfl
      · simp only [Except.map, Except.mapError, Option.map_some, ih, Option.map_map]
        congr 1
        funext r
        cases r <;> rfl

end Links

section Slices

variable {keep : α → Bool} {limit k m n : ℕ} {i : List (Except ε (Option α))} {l out : List α}

lemma take_drop_eq_slice (limit k : ℕ) (l : List α) :
    (l.drop (k * limit)).take limit = slice limit k l := by
  rw [slice, List.drop_take, Nat.add_mul, Nat.one_mul, Nat.add_sub_cancel_left]

lemma slice_take (h : k < n) : slice limit k (l.take (n * limit)) = slice limit k l := by
  rw [slice, List.take_take, Nat.min_eq_left (Nat.mul_le_mul_right limit h)]
  rfl

lemma Full.le_length (h : Full keep limit l k) (hl : 0 < limit) : (k + 1) * limit ≤ l.length := by
  have hle := h.trans (List.length_filter_le _ _)
  rw [slice, List.length_drop, List.length_take] at hle
  have hm : (k + 1) * limit = k * limit + limit := by rw [Nat.add_mul, Nat.one_mul]
  omega

lemma slicePage_of_quiet (h : raises i → (k + 1) * limit ≤ (yielded i).length) :
    slicePage keep limit i k = .ok ((slice limit k (yielded i)).filter keep,
      if limit ≤ ((slice limit k (yielded i)).filter keep).length then some (k + 1)
      else none) := by
  have hp : islice (k * limit) limit i = .ok (slice limit k (yielded i)) := by
    rw [islice_eq_ok_iff, take_drop_eq_slice, and_iff_left rfl]
    simpa only [Nat.add_mul, Nat.one_mul] using h
  rw [slicePage, hp]
  rfl

lemma slicePage_of_loud (hr : raises i)
    (h : (yielded i).length < (k + 1) * limit) : ∃ err, slicePage keep limit i k = .error err := by
  cases hp : islice (k * limit) limit i with
  | error err => exact ⟨err, by rw [slicePage, hp]; rfl⟩
  | ok page =>
    have hle := (islice_eq_ok_iff.1 hp).1 hr
    rw [Nat.add_mul, Nat.one_mul] at h
    omega

lemma follow_of_full (hl : 0 < limit) (h : Full keep limit (yielded i) k) :
    follow (slicePage keep limit i) (n + 1) k =
      (follow (slicePage keep limit i) n (k + 1)).map fun r =>
        r.map ((slice limit k (yielded i)).filter keep ++ ·) := by
  have hle : limit ≤ ((slice limit k (yielded i)).filter keep).length := h
  rw [follow, slicePage_of_quiet fun _ => h.le_length hl, if_pos hle]

lemma follow_of_short (h : ¬ Full keep limit (yielded i) k)
    (hq : raises i → (k + 1) * limit ≤ (yielded i).length) :
    follow (slicePage keep limit i) (n + 1) k =
      some (.ok ((slice limit k (yielded i)).filter keep)) := by
  have hle : ¬ limit ≤ ((slice limit k (yielded i)).filter keep).length := h
  rw [follow, slicePage_of_quiet hq, if_neg hle]

lemma exists_follow (hl : 0 < limit) (k : ℕ) :
    ∃ n out, follow (slicePage keep limit i) n k = some out := by
  induction hd : (yielded i).length - k * limit using Nat.strong_induction_on generalizing k with
  | h d ih =>
    subst hd
    by_cases hf : Full keep limit (yielded i) k
    · have hle := hf.le_length hl
      have hm : (k + 1) * limit = k * limit + limit := by rw [Nat.add_mul, Nat.one_mul]
      obtain ⟨n, out, hn⟩ := ih _ (by omega) (k + 1) rfl
      exact ⟨n + 1, _, by rw [follow_of_full hl hf, hn]; rfl⟩
    · by_cases hq : raises i = true → (k + 1) * limit ≤ (yielded i).length
      · exact ⟨1, _, follow_of_short hf hq⟩
      · rw [Classical.not_imp, not_le] at hq
        obtain ⟨err, he⟩ : ∃ err, slicePage keep limit i k = .error err :=
          slicePage_of_loud hq.1 hq.2
        exact ⟨1, .error err, by rw [follow, he]⟩

/-- What is collected from page `k` on, if the client stops at page `m`. -/
def collected (keep : α → Bool) (limit : ℕ) (l : List α) (k m : ℕ) : List α :=
  ((l.take ((m + 1) * limit)).drop (k * limit)).filter keep

lemma collected_succ (h : k < m) : collected keep limit l k m =
    (slice limit k l).filter keep ++ collected keep limit l (k + 1) m := by
  rw [collected, collected, ← List.filter_append, ← slice_take (Nat.lt_succ_of_lt h),
    slice_append_drop]

lemma follow_stops (hl : 0 < limit) (hkm : k ≤ m) (h : StopsAt keep limit i m) :
    follow (slicePage keep limit i) (m - k + 1) k =
      some (.ok (collected keep limit (yielded i) k m)) := by
  induction hd : m - k generalizing k with
  | zero =>
    obtain rfl : k = m := by omega
    exact follow_of_short h.short h.quiet
  | succ d ih =>
    rw [follow_of_full hl (h.full k (by omega)), ih (k := k + 1) (by omega) (by omega),
      collected_succ (k := k) (by omega)]
    rfl

lemma exists_stopsAt (hl : 0 < limit) (hk : ∀ j < k, Full keep limit (yielded i) j)
    (h : follow (slicePage keep limit i) n k = some (.ok out)) :
    ∃ m, k ≤ m ∧ StopsAt keep limit i m := by
  induction n generalizing k out with
  | zero => cases h
  | succ n ih =>
    by_cases hf : Full keep limit (yielded i) k
    · rw [follow_of_full hl hf] at h
      obtain ⟨r, hr, ho⟩ := Option.map_eq_some_iff.1 h
      cases r with
      | error err => cases ho
      | ok r =>
        have hk' : ∀ j < k + 1, Full keep limit (yielded i) j := by
          intro j hj
          obtain hlt | rfl := Nat.lt_succ_iff_lt_or_eq.1 hj
          · exact hk j hlt
          · exact hf
        obtain ⟨m, hm, ht⟩ := ih hk' hr
        exact ⟨m, (Nat.le_succ k).trans hm, ht⟩
    · by_cases hq : raises i = true → (k + 1) * limit ≤ (yielded i).length
      · exact ⟨k, le_rfl, hk, hf, hq⟩
      · rw [Classical.not_imp, not_le] at hq
        obtain ⟨err, he⟩ : ∃ err, slicePage keep limit i k = .error err :=
          slicePage_of_loud hq.1 hq.2
        simp [follow, he] at h

lemma follow_mono {get : κ → Except ε (List β × Option κ)} {link : κ} {d : ℕ}
    {x : Except ε (List β)} (h : follow get n link = some x) : follow get (n + d) link = some x := by
  induction n generalizing link x with
  | zero => cases h
  | succ n ih =>
    rw [Nat.succ_add, follow]
    rw [follow] at h
    split at h
    · exact h
    · exact h
    next next hget =>
      obtain ⟨r, hr, rfl⟩ := Option.map_eq_some_iff.1 h
      rw [ih hr]
      rfl

lemma exists_follow_ok_iff (hl : 0 < limit) :
    (∃ n, follow (slicePage keep limit i) n 0 = some (.ok out)) ↔
      ∃ m, StopsAt keep limit i m ∧ out = ((yielded i).take ((m + 1) * limit)).filter keep := by
  have ho (m : ℕ) : collected keep limit (yielded i) 0 m =
      ((yielded i).take ((m + 1) * limit)).filter keep := by
    rw [collected, Nat.zero_mul, List.drop_zero]
  constructor
  · rintro ⟨n, hn⟩
    obtain ⟨m, -, hm⟩ := exists_stopsAt hl (fun _ hj => absurd hj (Nat.not_lt_zero _)) hn
    have ht := follow_stops hl (Nat.zero_le m) hm
    have hu := (follow_mono (d := m - 0 + 1) hn).symm.trans
      (Nat.add_comm n _ ▸ follow_mono (d := n) ht)
    rw [Option.some.injEq, Except.ok.injEq, ho] at hu
    exact ⟨m, hm, hu⟩
  · rintro ⟨m, hm, rfl⟩
    exact ⟨_, ho m ▸ follow_stops hl (Nat.zero_le m) hm⟩

end Slices

end QJazz.Paging
