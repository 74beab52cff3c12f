import Orbit.Runtime.Database

/-!
# Migrations run once and in order

Between two runs the effects and the recorded versions are those of the first migrations
(`Applied`). A run in which no unchecked call fails keeps that and adds to it
(`applyMigration_applied`, `runFrom_applied`), so every run of such runs leaves what it should
(`orbitRunMigrations_migrated`).
-/

namespace Runtime.Migrations

open Json (Text)

/-- The first `k` migrations are applied and recorded, and no others. -/
structure Applied (ms : List (Option Text)) (k : Nat) (db : Db) : Prop where
  effects : db.committed.effects.map Prod.fst = List.range k
  versions : db.committed.versions = List.range k
  texts : ∀ i sql, (i, sql) ∈ db.committed.effects → ms[i]? = some (some sql)
  le : k ≤ ms.length
  closed : db.transaction = none

theorem Applied.extend {ms ms' : List (Option Text)} {k : Nat} {db : Db} (h : Applied ms k db)
    (hext : ms <+: ms') : Applied ms' k db where
  effects := h.effects
  versions := h.versions
  texts i sql hmem := by
    have hget := h.texts i sql hmem
    obtain ⟨t, rfl⟩ := hext
    rw [List.getElem?_append_left (List.getElem?_eq_some_iff.mp hget).1, hget]
  le := h.le.trans hext.length_le
  closed := h.closed

theorem Applied.migrated {ms : List (Option Text)} {k : Nat} {r : Bool × Db}
    (h : Applied ms k r.2) (hall : r.1 = true → k = ms.length) : Migrated ms r where
  once := by
    rw [h.effects]
    exact List.nodup_range
  ordered pre i post heq j hj := by
    rw [h.effects, List.range_eq_range', List.range'_eq_append_iff] at heq
    obtain ⟨n, -, rfl, hpost⟩ := heq
    have hi : 0 + n * 1 = i := (List.range'_eq_cons_iff.mp hpost.symm).1
    rw [List.mem_range'_1]
    omega
  texts := h.texts
  recorded i := by rw [h.effects, h.versions]
  complete hr i hi := by
    rw [h.effects, hall hr]
    exact List.mem_range.mpr hi
  closed := h.closed

section
variable {fails : Call → Bool} {db0 : Db} (hok : Unchecked fails db0)
include hok

/-- The next migration is applied and recorded, or nothing is changed. -/
theorem applyMigration_applied {ms : List (Option Text)} {k : Nat} {db : Db} {sql : Text}
    (h : Applied ms k db) (hsql : ms[k]? = some (some sql)) :
    (applyMigration fails db k sql = (false, db)) ∨
      ((applyMigration fails db k sql).1 = true ∧
        Applied ms (k + 1) (applyMigration fails db k sql).2) := by
  obtain ⟨hprepare, hbind, hstep⟩ := hok.insert k
  obtain ⟨hcommit, hrollback⟩ := hok.finish k
  obtain ⟨⟨versions, effects⟩, transaction⟩ := db
  obtain ⟨heffects, hversions, htexts, hle, hclosed⟩ := h
  dsimp only at heffects hversions htexts hclosed
  subst hversions hclosed
  rw [applyMigration]
  by_cases hbegin : fails (.beginExec k) = true
  · rw [if_pos hbegin]
    exact .inl rfl
  · rw [if_neg hbegin]
    by_cases hexec : fails (.migrationExec k) = true
    · left
      simp only [Db.begin, Option.isSome_none, Bool.false_eq_true, if_false, hexec, if_true,
        hrollback, Db.rollback]
    · right
      simp only [Db.begin, Option.isSome_none, Bool.false_eq_true, if_false, hexec, insertRow,
        hprepare, hstep, hbind, Bool.or_self, hcommit, Db.write, Db.visible, Option.isSome_some,
        if_true, Option.getD_some, Tables.insertVersion, List.mem_range, Nat.lt_irrefl, Db.commit,
        true_and]
      have hlen : k < ms.length := (List.getElem?_eq_some_iff.mp hsql).1
      refine ⟨?_, List.range_succ.symm, ?_, hlen, rfl⟩
      · simp [heffects, List.range_succ]
      · intro i t hmem
        rcases List.mem_append.mp hmem with hmem | hmem
        · exact htexts i t hmem
        · rw [List.mem_singleton] at hmem
          cases hmem
          exact hsql

omit hok in
theorem runFrom_cons (i : Nat) (m : Option Text) (ms : List (Option Text)) (db : Db) :
    runFrom fails i (m :: ms) db =
      if fails (.selectPrepare i) then (false, db)
      else if isDone fails db i then runFrom fails (i + 1) ms db
      else
        match m with
        | none => (false, db)
        | some sql =>
          if sql = [] then (false, db)
          else
            let r := applyMigration fails db i sql
            if r.1 then runFrom fails (i + 1) ms r.2 else (false, r.2) := by
  cases m <;> rfl

theorem runFrom_applied {all ms : List (Option Text)} {i k : Nat} {db : Db}
    (hms : all.drop i = ms) (h : Applied all k db)
    (hk : ∀ j, i ≤ j → j < k → j ∈ db0.committed.versions) (hik : i ≤ k) :
    ∃ k', Applied all k' (runFrom fails i ms db).2 ∧
      ((runFrom fails i ms db).1 = true → k' = all.length) := by
  induction ms generalizing i k db with
  | nil =>
    have := List.drop_eq_nil_iff.mp hms
    exact ⟨k, h, fun _ => Nat.le_antisymm h.le (this.trans hik)⟩
  | cons m ms ih =>
    have hnext : all.drop (i + 1) = ms := by rw [← List.tail_drop, hms, List.tail_cons]
    have hget : all[i]? = some m := by rw [← List.head?_drop, hms, List.head?_cons]
    have hvisible : db.visible.versions = List.range k := by
      rw [Db.visible, h.closed, Option.getD_none, h.versions]
    rw [runFrom_cons]
    by_cases hprepare : fails (.selectPrepare i) = true
    · rw [if_pos hprepare]
      exact ⟨k, h, nofun⟩
    rw [if_neg hprepare]
    by_cases hlt : i < k
    · obtain ⟨hbind, hstep⟩ := hok.select i (hk i (Nat.le_refl _) hlt)
      have hdone : isDone fails db i = true := by simp [isDone, hbind, hstep, hvisible, hlt]
      rw [if_pos hdone]
      exact ih hnext h (fun j hj => hk j (by omega)) hlt
    · obtain rfl : i = k := by omega
      have hdone : ¬ isDone fails db i = true := by simp [isDone, hvisible]
      rw [if_neg hdone]
      cases m with
      | none => exact ⟨i, h, nofun⟩
      | some sql =>
        by_cases hempty : sql = []
        · simp only [hempty, if_true]
          exact ⟨i, h, nofun⟩
        simp only [hempty, if_false]
        rcases applyMigration_applied hok h hget with hsame | ⟨htrue, happlied⟩
        · rw [hsame]
          exact ⟨i, h, nofun⟩
        · rw [if_pos htrue]
          exact ih hnext happlied (fun j hj hjk => absurd hjk (by omega)) (Nat.le_refl _)

/-- One run. -/
theorem orbitRunMigrations_applied {ms : List (Option Text)} {k : Nat}
    (h : Applied ms k db0) :
    ∃ k', Applied ms k' (orbitRunMigrations fails ms db0).2 ∧
      ((orbitRunMigrations fails ms db0).1 = true → k' = ms.length) := by
  rw [orbitRunMigrations]
  split
  · exact ⟨k, h, nofun⟩
  · refine runFrom_applied hok rfl h (fun j _ hj => ?_) (Nat.zero_le _)
    rw [h.versions]
    exact List.mem_range.mpr hj

end

/-- What is reached by such runs. -/
theorem Reached.applied {ms : List (Option Text)} {db : Db} (h : Reached Unchecked ms db) :
    ∃ k, Applied ms k db := by
  induction h with
  | fresh => exact ⟨0, rfl, rfl, nofun, Nat.le_refl _, rfl⟩
  | run _ hext hok ih =>
    obtain ⟨k, hk⟩ := ih
    obtain ⟨k', hk', -⟩ := orbitRunMigrations_applied hok (hk.extend hext)
    exact ⟨k', hk'⟩

/-- **Migrations run once and in order** when no unchecked call fails: every run leaves each effect
at most once, in order, recorded, all of them when it returns true, and no open transaction. -/
theorem orbitRunMigrations_migrated {ms ms' : List (Option Text)} {db : Db} {fails : Call → Bool}
    (h : Reached Unchecked ms db) (hext : ms <+: ms') (hok : Unchecked fails db) :
    Migrated ms' (orbitRunMigrations fails ms' db) := by
  obtain ⟨k, hk⟩ := h.applied
  obtain ⟨k', hk', hall⟩ := orbitRunMigrations_applied hok (hk.extend hext)
  exact hk'.migrated hall

/-! ## Runs of three calls -/

/-- A list of one migration. -/
def oneMigration : List (Option Text) := [some ['x']]

/-- A run whose migration fails, and one in which it goes through. -/
theorem orbitRunMigrations_retried :
    Migrated oneMigration (orbitRunMigrations (fun _ => false) oneMigration
      (orbitRunMigrations (fun c => c = .migrationExec 0) oneMigration .fresh).2) := by
  have hretry : Unchecked (fun c => decide (c = .migrationExec 0)) .fresh :=
    ⟨nofun, fun _ => ⟨rfl, rfl, rfl⟩, fun _ => ⟨rfl, rfl⟩⟩
  exact orbitRunMigrations_migrated (.run .fresh List.nil_prefix hretry) (List.prefix_refl _)
    ⟨fun _ _ => ⟨rfl, rfl⟩, fun _ => ⟨rfl, rfl, rfl⟩, fun _ => ⟨rfl, rfl⟩⟩

/-- A run whose bookkeeping row fails commits the effect without its version. -/
theorem orbitRunMigrations_unrecorded :
    ¬ ∀ (ms ms' : List (Option Text)) (db : Db) (fails : Call → Bool),
      Reached (fun _ _ => True) ms db → ms <+: ms' →
        Migrated ms' (orbitRunMigrations fails ms' db) := by
  intro h
  have hrun := h [] oneMigration .fresh (fun c => decide (c = .insertStep 0)) .fresh
    List.nil_prefix
  have := (hrun.recorded 0).mpr (by decide)
  revert this
  decide

end Runtime.Migrations
