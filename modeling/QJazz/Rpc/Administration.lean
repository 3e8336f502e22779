import QJazz.Rpc.Cache.Restored

/-! The admin service asks one worker, and leaves the others to the log of the restorer, which has a
removal only for a project that was pulled, and a pull only for one that was not. -/
namespace QJazz.Rpc.Admin

open Cache Pool Worker Restore

section Service
variable {χ : Type*} (exec : WorkerCall → χ → Option χ)

def checkoutProject (r : Restore) (server : Pool.Worker χ) (uri : String) (pull : Bool)
    (status : CheckoutStatus) : Option (Restore × Pool.Worker χ) :=
  (server.call exec (.checkoutProject uri pull)).map fun server =>
    (if pull then
        r.updateCache (if status = .REMOVED ∨ status = .NOTFOUND then .remove uri else .pull uri)
      else r,
      server)

def dropProject (r : Restore) (server : Pool.Worker χ) (uri : String) :
    Option (Restore × Pool.Worker χ) :=
  (server.call exec (.checkoutProject uri false)).map fun server => (r.updateCache (.remove uri), server)

end Service

/-- Once the project is dropped, a worker at the revision does not have it after its next restore,
whatever it had before. -/
def DropReaches (r : Restore) (uri : String) (lastUpdate : ℕ) : Prop :=
  ∀ (χ : Type) (exec : WorkerCall → χ → Option χ) (Inv Absent : χ → Prop),
    Restore.Follows exec uri false false Inv Absent →
    ∀ server server' r', dropProject exec r server uri = some (r', server') →
    ∀ w w' : Pool.Worker χ, Inv w.child → w.lastUpdate = lastUpdate →
      r'.restore exec w = some w' → Absent w'.child

lemma dropProject_restore {χ : Type*} {exec : WorkerCall → χ → Option χ} {r r' : Restore}
    {server server' : Pool.Worker χ} {uri : String}
    (h : dropProject exec r server uri = some (r', server')) : r' = r.updateCache (.remove uri) := by
  obtain ⟨_, -, heq⟩ := Option.map_eq_some_iff.1 h
  exact (Prod.mk.inj heq).1.symm

/-- A dropped project is gone from the workers that have been restored before, if the oldest command
about it that they have not seen is no pull, and if the project was pulled in case there is none. -/
theorem dropReaches_iff (projects : List String) (history : List Restore.Issued) (uri : String)
    (lastUpdate : ℕ) (hle : lastUpdate ≤ ((Restore.withProjects projects).issueAll history).update) :
    DropReaches ((Restore.withProjects projects).issueAll history) uri lastUpdate ↔ lastUpdate ≠ 0 ∧
        ((Restore.withProjects projects).issueAll history).oldestAbout uri lastUpdate ≠
          some (.pull uri) ∧
        (((Restore.withProjects projects).issueAll history).oldestAbout uri lastUpdate = none →
          uri ∈ ((Restore.withProjects projects).issueAll history).pulls) := by
  have ho := (withProjects_ordered projects).issueAll history
  generalize (Restore.withProjects projects).issueAll history = r at *
  rw [← ho.settled_remove hle]
  constructor
  · intro h
    exact h Bool _ _ _ (follows_bit uri false false) (Restore.bitWorker 0 false)
      (Restore.bitWorker 0 false) _ rfl (Restore.bitWorker lastUpdate false) _ trivial rfl
      ((ho.updateCache _).restore_bit lastUpdate)
  · rintro he χ exec Inv Absent hf server server' r' hd w w' hInv rfl hr
    obtain rfl := dropProject_restore hd
    exact (hf.known_restore (ho.updateCache _) hInv hr).holds he

theorem dropReaches_pulled :
    DropReaches ((Restore.withProjects ["/srv/map.qgs"]).issueAll [.cache .update]) "/srv/map.qgs" 1 :=
  (dropReaches_iff ["/srv/map.qgs"] [.cache .update] "/srv/map.qgs" 1 (by decide)).2 (by decide)

lemma restore_nothing_pulled {χ : Type*} {exec : WorkerCall → χ → Option χ} {w : Pool.Worker χ}
    (h : w.lastUpdate = 0) : (Restore.withProjects []).restore exec w = some w := by
  rcases w with ⟨c, a, g, l⟩
  subst h
  simp [Restore.restore, Restore.updateWorkerConfig, Restore.updateWorkerCache, Restore.withProjects]

def requested : Pool.Worker Node :=
  { child := { state := { cache := .roomy [mapEntry] (by decide), catalog := [] } } }

/-- The file is dropped, and the worker that has it is restored and has it still. -/
theorem not_dropReaches_requested :
    (∃ r' server', dropProject (Node.exec (fun _ => mapWorker 1 2) fun _ _ => true)
        (Restore.withProjects []) requested "/srv/map.qgs" = some (r', server') ∧
      ∃ w', r'.restore (Node.exec (fun _ => mapWorker 1 2) fun _ _ => true) requested = some w' ∧
        ¬ w'.child.Absent "/srv/map.qgs") ∧
      ¬ DropReaches (Restore.withProjects []) "/srv/map.qgs" requested.lastUpdate := by
  constructor
  · have he : ((dropProject (Node.exec (fun _ => mapWorker 1 2) fun _ _ => true)
        (Restore.withProjects []) requested "/srv/map.qgs")).isSome = true := by
      decide +kernel
    obtain ⟨⟨r', server'⟩, hd⟩ := Option.isSome_iff_exists.1 he
    refine ⟨r', server', hd, requested, ?_, fun hn => hn mapEntry rfl⟩
    rw [dropProject_restore hd, updateCache_noop (by decide)]
    exact restore_nothing_pulled rfl
  · intro h
    have hi := h Bool _ _ _ (follows_bit "/srv/map.qgs" false false)
      (Restore.bitWorker 0 false) (Restore.bitWorker 0 false) _ rfl (Restore.bitWorker 0 false)
      (Restore.bitWorker 0 false) trivial rfl
    rw [updateCache_noop (by decide)] at hi
    cases hi (restore_nothing_pulled rfl)

/-- Once the project is pulled, the worker that was asked has it as recent as it was then, and so has a
worker at the revision after its next restore. -/
def PullRefreshes (r : Restore) (uri : String) (swept : Bool) (lastUpdate : ℕ) : Prop :=
  ∀ (χ : Type) (exec : WorkerCall → χ → Option χ) (Inv Recent : χ → Prop),
    Restore.Follows exec uri true swept Inv Recent →
    ∀ server server' r' status, status ≠ .REMOVED → status ≠ .NOTFOUND → Inv server.child →
      checkoutProject exec r server uri true status = some (r', server') →
      Recent server'.child ∧ (∀ s, r'.restore exec server' = some s → Recent s.child) ∧
        ∀ w w' : Pool.Worker χ, Inv w.child → w.lastUpdate = lastUpdate →
          r'.restore exec w = some w' → Recent w'.child

lemma checkoutProject_eq {χ : Type*} {exec : WorkerCall → χ → Option χ} {r r' : Restore}
    {server server' : Pool.Worker χ} {uri : String} {status : CheckoutStatus}
    (hr : status ≠ .REMOVED) (hn : status ≠ .NOTFOUND)
    (h : checkoutProject exec r server uri true status = some (r', server')) :
    server.call exec (.checkoutProject uri true) = some server' ∧ r' = r.updateCache (.pull uri) := by
  obtain ⟨s, hl, heq⟩ := Option.map_eq_some_iff.1 h
  simp only [hr, hn, or_self, if_false, if_true, Prod.mk.injEq] at heq
  exact ⟨heq.2 ▸ hl, heq.1.symm⟩

/-- A pull reaches a worker exactly if the project was not pulled before, or the worker was never
restored, or a command about the project is pending for it, or the refresh of its cache loads what has
changed and there is something to refresh it for. -/
theorem pullRefreshes_iff (projects : List String) (history : List Restore.Issued) (uri : String)
    (swept : Bool) (lastUpdate : ℕ)
    (hle : lastUpdate ≤ ((Restore.withProjects projects).issueAll history).update) :
    PullRefreshes ((Restore.withProjects projects).issueAll history) uri swept lastUpdate ↔
      uri ∉ ((Restore.withProjects projects).issueAll history).pulls ∨ lastUpdate = 0 ∨
        ((Restore.withProjects projects).issueAll history).oldestAbout uri lastUpdate ≠ none ∨
        (swept = true ∧ lastUpdate < ((Restore.withProjects projects).issueAll history).update) := by
  have ho := (withProjects_ordered projects).issueAll history
  generalize (Restore.withProjects projects).issueAll history = r at *
  rw [← ho.settled_pull hle]
  constructor
  · intro h
    obtain ⟨-, -, hw⟩ := h Bool _ _ _ (follows_bit uri true swept)
      (Restore.bitWorker 0 false) _ (r.updateCache (.pull uri)) .NEW (by decide) (by decide) trivial
      rfl
    exact hw (Restore.bitWorker lastUpdate false) _ trivial rfl
      ((ho.updateCache _).restore_bit lastUpdate)
  · intro ht χ exec Inv Recent hf server server' r' status hr hn hInv hp
    obtain ⟨hl, rfl⟩ := checkoutProject_eq hr hn hp
    have hk : Restore.Follows.Known Inv Recent false server := ⟨hInv, by simp⟩
    have he : Restore.Follows.Known Inv Recent true server' := by
      simpa using hf.known_pull hk hl
    refine ⟨he.holds rfl, fun s hs => (hf.holds_restore he hs).holds rfl, ?_⟩
    rintro w w' hInv rfl hre
    exact (hf.known_restore (ho.updateCache _) hInv hre).holds ht

theorem pullRefreshes_first :
    PullRefreshes ((Restore.withProjects []).issueAll [.cache .update]) "/srv/map.qgs" false 1 :=
  (pullRefreshes_iff [] [.cache .update] "/srv/map.qgs" false 1 (by decide)).2 (by decide)

lemma restore_up_to_date {χ : Type*} {exec : WorkerCall → χ → Option χ} {w : Pool.Worker χ}
    {r : Restore} (ho : r.config.1 ≤ r.update) (hp : r.update ≠ 0)
    (h : w.lastUpdate = r.update) : r.restore exec w = some w := by
  rcases w with ⟨c, a, g, l⟩
  subst h
  simp [Restore.restore, Restore.updateWorkerConfig, Restore.updateWorkerCache, not_lt.2 ho, hp]

def modifiedWorker : Context :=
  { mapWorker 2 3 with project := fun _ => .ok { mapProject with crs := "EPSG:3857" } }

def stale : Pool.Worker Node :=
  { child := { state := { cache := .roomy [mapEntry] (by decide), catalog := [] } }, lastUpdate := 1 }

def pulledMap : Restore := (Restore.withProjects ["/srv/map.qgs"]).issueAll [.cache .update]

/-- The file is pulled again. The worker that is asked loads the second version, and the other one is
restored and keeps the first. -/
theorem not_pullRefreshes_again : (stale.child.Dated (fun _ => modifiedWorker) "/srv/map.qgs" ∧
      ∃ server', checkoutProject (Node.exec (fun _ => modifiedWorker) fun _ _ => true) pulledMap stale
          "/srv/map.qgs" true .UPDATED = some (pulledMap, server') ∧
        (server'.child.state.cache.get? "/srv/map.qgs").map (·.project) =
          some { mapProject with crs := "EPSG:3857" } ∧
        pulledMap.restore (Node.exec (fun _ => modifiedWorker) fun _ _ => true) stale = some stale ∧
        ¬ stale.child.Recent (fun _ => modifiedWorker) "/srv/map.qgs") ∧
      ¬ PullRefreshes pulledMap "/srv/map.qgs" false stale.lastUpdate := by
  have hn : pulledMap.updateCache (.pull "/srv/map.qgs") = pulledMap :=
    updateCache_noop (by decide)
  constructor
  · refine ⟨?_, ?_⟩
    · intro e he
      cases he
      refine Or.inr ?_
      rintro t url md ⟨⟩ -
      decide +kernel
    · have hl : (checkoutProject (Node.exec (fun _ => modifiedWorker) fun _ _ => true) pulledMap
          stale "/srv/map.qgs" true .UPDATED).map (fun p =>
            (p.2.child.state.cache.get? "/srv/map.qgs").map (·.project)) =
          some (some { mapProject with crs := "EPSG:3857" }) := by
        decide +kernel
      obtain ⟨⟨r', server'⟩, hu, hp⟩ := Option.map_eq_some_iff.1 hl
      obtain rfl := (checkoutProject_eq (by decide) (by decide) hu).2
      rw [hn] at hu
      refine ⟨server', hu, hp, restore_up_to_date (by decide) (by decide) (by decide), ?_⟩
      intro hr
      obtain ⟨t, md, -, hp⟩ := hr mapEntry rfl
      have hcr : "EPSG:3857" = "EPSG:4326" := congrArg Ogc.Project.crs (Except.ok.inj hp)
      exact absurd hcr (by decide)
  · intro h
    obtain ⟨-, -, hw⟩ := h Bool _ _ _ (follows_bit "/srv/map.qgs" true false)
      (Restore.bitWorker 0 false) _ _ .NEW (by decide) (by decide) trivial rfl
    have hi := hw (Restore.bitWorker 1 false) (Restore.bitWorker 1 false) trivial rfl
    simp only [if_true, reduceCtorEq, or_self, if_false, hn] at hi
    cases hi (restore_up_to_date (by decide) (by decide) (by decide))

section Nodes
variable {world : ℕ → Context} {a : ℕ → Config.Document → Bool} {paths projects : List String}
  {history : List Restore.Issued} {r r' : Restore} {s server' w w' : Pool.Worker Node}
  {uri key : String} {status : CheckoutStatus}

/-- The cache of a worker process has no entry of a dropped project once the worker is restored. -/
theorem absent_of_dropProject (hlocates : ∀ t, ∀ v ∈ paths, (world t).Locates v uri key)
    (hrun : r = (Restore.withProjects projects).issueAll history) (hle : w.lastUpdate ≤ r.update)
    (hpos : w.lastUpdate ≠ 0) (hpull : r.oldestAbout uri w.lastUpdate ≠ some (.pull uri))
    (hnone : r.oldestAbout uri w.lastUpdate = none → uri ∈ r.pulls)
    (hdrop : dropProject (Node.execOn world a paths) r s uri = some (r', server'))
    (hrestore : r'.restore (Node.execOn world a paths) w = some w') : w'.child.Absent key := by
  subst hrun
  have ho := (withProjects_ordered projects).issueAll history
  obtain rfl := dropProject_restore hdrop
  have he := (ho.settled_remove hle uri).2 ⟨hpos, hpull, hnone⟩
  exact ((Node.follows_absent hlocates).known_restore (ho.updateCache _) (fun _ _ => trivial)
    hrestore).holds he

lemma locates_mapWorker (m n : ℚ) (v : String) (h : v ∈ ["/srv/map.qgs"]) :
    (mapWorker m n).Locates v "/srv/map.qgs" "/srv/map.qgs" := by
  intro url k _ hk
  cases hk
  exact iff_of_true rfl (List.mem_singleton.1 h)

def mapExec : WorkerCall → Node → Option Node :=
  Node.execOn (fun _ => mapWorker 1 2) (fun _ _ => true) ["/srv/map.qgs"]

theorem absent_of_dropProject_pulled : ∃ r' server' w',
    dropProject mapExec pulledMap stale "/srv/map.qgs" = some (r', server') ∧
      r'.restore mapExec stale = some w' ∧ w'.child.Absent "/srv/map.qgs" := by
  have h : ((dropProject mapExec pulledMap stale "/srv/map.qgs").bind fun p =>
      p.1.restore mapExec stale).isSome = true := by
    decide +kernel
  obtain ⟨w', h⟩ := Option.isSome_iff_exists.1 h
  obtain ⟨⟨r', server'⟩, hd, hr⟩ := Option.bind_eq_some_iff.1 h
  have hrun : pulledMap = (Restore.withProjects ["/srv/map.qgs"]).issueAll [.cache .update] := rfl
  exact ⟨r', server', w', hd, hr, absent_of_dropProject (fun _ => locates_mapWorker 1 2)
    hrun (by decide) (by decide) (by decide) (by decide) hd hr⟩

/-- A worker has no copy of a pulled project that is older than the pull once it is restored. -/
theorem recent_of_checkoutProject (hlocates : ∀ t, ∀ v ∈ paths, (world t).Locates v uri key)
    (hrun : r = (Restore.withProjects projects).issueAll history) (hle : w.lastUpdate ≤ r.update)
    (hdated : w.child.Dated world key)
    (hnew : uri ∉ r.pulls ∨ w.lastUpdate = 0 ∨ r.oldestAbout uri w.lastUpdate ≠ none)
    (hremoved : status ≠ .REMOVED) (hfound : status ≠ .NOTFOUND)
    (hpull : checkoutProject (Node.execOn world a paths) r s uri true status = some (r', server'))
    (hrestore : r'.restore (Node.execOn world a paths) w = some w') : w'.child.Recent world key := by
  subst hrun
  have ho := (withProjects_ordered projects).issueAll history
  obtain ⟨-, rfl⟩ := checkoutProject_eq hremoved hfound hpull
  have ht := (ho.settled_pull hle uri false).2 (by tauto)
  exact ((Node.follows_recent hlocates).known_restore (ho.updateCache _) hdated hrestore).holds ht

theorem recent_of_checkoutProject_first : ∃ r' server' w',
    checkoutProject mapExec ((Restore.withProjects []).issueAll [.cache .update]) stale
        "/srv/map.qgs" true .UNCHANGED = some (r', server') ∧ r'.restore mapExec stale = some w' ∧
      w'.child.Recent (fun _ => mapWorker 1 2) "/srv/map.qgs" := by
  have h : ((checkoutProject mapExec ((Restore.withProjects []).issueAll [.cache .update]) stale
      "/srv/map.qgs" true .UNCHANGED).bind fun p => p.1.restore mapExec stale).isSome = true := by
    decide +kernel
  obtain ⟨w', h⟩ := Option.isSome_iff_exists.1 h
  obtain ⟨⟨r', server'⟩, hp, hr⟩ := Option.bind_eq_some_iff.1 h
  refine ⟨r', server', w', hp, hr, recent_of_checkoutProject (fun _ => locates_mapWorker 1 2)
    rfl (by decide) ?_ (.inl (by decide)) (by decide) (by decide) hp hr⟩
  intro e he
  cases he
  exact Or.inl ⟨0, mapMetadata 1, rfl, rfl⟩

end Nodes

end QJazz.Rpc.Admin
