import MlopsPlatform.Api.Routes

/-!
# Startups that seed the demo users

`seed_demo_users` of `db/seed.py`, which every process of the API runs in its `lifespan` before it
serves, and `hash_password` of `core/security.py`. The four lookups are separate reads, and what is
missing is inserted in one commit at the end, which the unique columns of `users` may reject; the
exception ends the process, and it is started again. Nothing else writes the table.

Any number of processes may start at once. The commit of the first one that adds users makes every
later one that has found a user missing fail, since it would insert that user again. So the table is
the one that was there, or has each missing demo user once (`SeededFrom`), whatever falls in between
the lookups; a startup that completes has all of them, and one that fails completes when it is
started again, unless the email of a missing user is taken (`demoUsers_of_trace`).
-/

namespace MlopsPlatform.Startup

open Transition Api

/-! ## Seeding -/

/-- A user to seed. -/
structure DemoUser where
  username : String
  fullName : String
  email : String
  role : Role
  deriving DecidableEq

/-- One demo user per role. -/
def demoUsers : List DemoUser :=
  [⟨"admin", "Ada Admin", "admin@example.com", .admin⟩,
    ⟨"approver", "Priya Approver", "approver@example.com", .approver⟩,
    ⟨"engineer", "Eli Engineer", "engineer@example.com", .engineer⟩,
    ⟨"viewer", "Vic Viewer", "viewer@example.com", .viewer⟩]

/-- A user without the key and the password. -/
def DemoUser.ofUser (u : User) : DemoUser := ⟨u.username, u.fullName, u.email, u.role⟩

/-- The row of a demo user, with the hash of the password. -/
def DemoUser.row (spec : DemoUser) (hashedPassword : String) : Table.Draft User.id :=
  ⟨fun id =>
    { id, username := spec.username, email := spec.email, fullName := spec.fullName
      hashedPassword, role := spec.role }, fun _ => rfl⟩

/-- The rows of users that are added. -/
def rows (added : List (DemoUser × String)) : List (Table.Draft User.id) :=
  added.map fun x => x.1.row x.2

/-- Insert users, unless a unique column rejects one. -/
def insertUsers (users : Users) (added : List (DemoUser × String)) : Option Users :=
  let rows := users.rows.insertAll (rows added)
  if h : (rows.rows.Pairwise fun a b => a.username ≠ b.username) ∧
      rows.rows.Pairwise fun a b => a.email ≠ b.email then
    some ⟨rows, h.1, h.2⟩
  else none

/-- A process of the API that starts. -/
inductive Process
  /-- It does not run. -/
  | down
  /-- The users that are still to be looked up, and those that were missing, with their hashes. -/
  | seeding (pending : List DemoUser) (added : List (DemoUser × String))
  /-- The users are seeded, so many of them by this process. -/
  | seeded (created : ℕ)

/-- What a process does. -/
inductive StartupAction
  | start
  /-- Look the next user up. If it is missing, its password is hashed with a new salt. -/
  | lookUp (salt : String)
  /-- Commit, if users were added. -/
  | finish
  | crash

section

variable (hashpw : String → String → String) (demoPassword : String)

/-- Hash a password with a salt. -/
def hashPassword (plain salt : String) : String := hashpw plain salt

/-- One action of a process. -/
def act (users : Users) : Process → StartupAction → Option (Users × Process)
  | .down, .start => some (users, .seeding demoUsers [])
  | .seeding (spec :: pending) added, .lookUp salt =>
    match users.named spec.username with
    | some _ => some (users, .seeding pending added)
    | none =>
      some (users, .seeding pending (added ++ [(spec, hashPassword hashpw demoPassword salt)]))
  | .seeding [] [], .finish => some (users, .seeded 0)
  | .seeding [] added, .finish =>
    match insertUsers users added with
    | some users' => some (users', .seeded added.length)
    | none => some (users, .down)
  | _, .crash => some (users, .down)
  | _, _ => none

/-- The users and the processes. -/
abbrev Startups := Config ℕ Users Process

/-- A step of one of the processes. -/
abbrev step : Startups → ℕ × StartupAction → Option Startups :=
  Config.step (act hashpw demoPassword)

/-- No process runs. -/
def Startups.init (users : Users) : Startups := ⟨users, fun _ => .down⟩

end

/-! ## What the table can be -/

/-- Demo users that have no row. -/
def missingOf (users : Users) (specs : List DemoUser) : List DemoUser :=
  specs.filter fun spec => (users.named spec.username).isNone

/-- The demo users that have no row. -/
def missing (users : Users) : List DemoUser := missingOf users demoUsers

section

variable {hashpw : String → String → String} {demoPassword : String}

/-- The passwords of added users are hashed. -/
def Hashed (hashpw : String → String → String) (demoPassword : String)
    (added : List (DemoUser × String)) : Prop :=
  ∀ x ∈ added, ∃ salt, x.2 = hashPassword hashpw demoPassword salt

/-- The demo users that had no row have been added, each once and in their order. -/
def SeededFrom (hashpw : String → String → String) (demoPassword : String) (users₀ users : Users) :
    Prop :=
  ∃ added, added.map Prod.fst = missing users₀ ∧ Hashed hashpw demoPassword added ∧
    users.rows = users₀.rows.insertAll (rows added)

/-- A user with a name is found. -/
theorem named_isSome {users : Users} {u : User} (h : u ∈ users.rows) :
    (users.named u.username).isSome = true := by
  rw [Users.named_username h]
  rfl

/-- A demo user is missing if there is no row with its name. -/
theorem mem_missing {users : Users} {spec : DemoUser} :
    spec ∈ missing users ↔ spec ∈ demoUsers ∧ ∀ u ∈ users.rows, u.username ≠ spec.username := by
  unfold missing missingOf
  rw [List.mem_filter, Option.isNone_iff_eq_none]
  refine and_congr_right fun _ => ⟨fun hnone u hu hname => ?_, fun hnone => ?_⟩
  · have hsome := named_isSome hu
    rw [hname, hnone] at hsome
    exact absurd hsome (by decide)
  · cases hfind : users.named spec.username with
    | none => rfl
    | some u =>
      obtain ⟨hu, hname⟩ := Users.mem_of_named hfind
      exact absurd hname (hnone u hu)

/-- A column of the rows after users are added. -/
theorem map_rows_insertAll {β : Type} {t : Table User.id} {added : List (DemoUser × String)}
    (f : User → β) (g : DemoUser → β) (hf : ∀ x ∈ added, ∀ n, f ((x.1.row x.2).1 n) = g x.1) :
    (t.insertAll (rows added)).rows.map f = t.rows.map f ++ added.map fun x => g x.1 := by
  have hrow : ∀ d ∈ rows added, ∀ n m, f (d.1 n) = f (d.1 m) := by
    intro d hd n m
    obtain ⟨x, hx, rfl⟩ := List.mem_map.mp hd
    rw [hf x hx, hf x hx]
  rw [Table.map_rows_insertAll hrow, rows, List.map_map]
  congr 1
  exact List.map_congr_left fun x hx => hf x hx 0

/-- Users are inserted if no name and no email is there twice. -/
theorem insertUsers_isSome {users : Users} {added : List (DemoUser × String)} :
    (insertUsers users added).isSome = true ↔
      (users.rows.rows.map User.username ++ added.map fun x => x.1.username).Nodup ∧
        (users.rows.rows.map User.email ++ added.map fun x => x.1.email).Nodup := by
  rw [← map_rows_insertAll User.username DemoUser.username fun _ _ _ => rfl,
    ← map_rows_insertAll User.email DemoUser.email fun _ _ _ => rfl]
  unfold insertUsers List.Nodup
  rw [List.pairwise_map, List.pairwise_map]
  dsimp only
  split_ifs with h
  · simp [h]
  · simp [h]

/-- What is inserted are the rows of the users that are added. -/
theorem rows_of_insertUsers {users users' : Users} {added : List (DemoUser × String)}
    (h : insertUsers users added = some users') :
    users'.rows = users.rows.insertAll (rows added) := by
  unfold insertUsers at h
  dsimp only at h
  split_ifs at h
  exact (congrArg Users.rows (Option.some.inj h)).symm

/-- A demo user has a row once the missing ones have been added: the one that was there, or its own,
with a hash of the password. -/
theorem SeededFrom.row {users₀ users : Users} (h : SeededFrom hashpw demoPassword users₀ users)
    {spec : DemoUser} (hspec : spec ∈ demoUsers) :
    ∃ u ∈ users.rows, u.username = spec.username ∧
      (spec ∈ missing users₀ → DemoUser.ofUser u = spec ∧
        ∃ salt, u.hashedPassword = hashPassword hashpw demoPassword salt) := by
  obtain ⟨added, hadded, hhashed, hrows⟩ := h
  by_cases hmissing : spec ∈ missing users₀
  · obtain ⟨x, hx, rfl⟩ := List.mem_map.mp (hadded.symm ▸ hmissing)
    obtain ⟨i, hi, hget⟩ := List.mem_iff_getElem.mp hx
    have hdraft : (rows added)[i]? = some (x.1.row x.2) := by
      rw [rows, List.getElem?_map, List.getElem?_eq_getElem hi, hget, Option.map_some]
    refine ⟨(x.1.row x.2).1 (users₀.rows.next + i), ?_, rfl, fun _ => ⟨rfl, hhashed x hx⟩⟩
    rw [hrows, Table.mem_insertAll_iff]
    exact Or.inr ⟨i, _, hdraft, rfl⟩
  · rw [mem_missing] at hmissing
    push Not at hmissing
    obtain ⟨u, hu, hname⟩ := hmissing hspec
    refine ⟨u, ?_, hname, fun habsent => ?_⟩
    · rw [hrows]
      exact Table.mem_insertAll_of_mem hu
    · exact absurd hname ((mem_missing.mp habsent).2 u hu)

/-- A user that has been added is not added again. -/
theorem SeededFrom.insertUsers_eq_none {users₀ users : Users}
    (h : SeededFrom hashpw demoPassword users₀ users) {added : List (DemoUser × String)}
    (hmissing : ∀ x ∈ added, x.1 ∈ missing users₀) (hsome : added ≠ []) :
    insertUsers users added = none := by
  obtain ⟨x, hx⟩ := List.exists_mem_of_ne_nil added hsome
  obtain ⟨u, hu, hname, -⟩ := h.row (mem_missing.mp (hmissing x hx)).1
  by_contra haccepted
  have hnodup := (insertUsers_isSome.mp (Option.ne_none_iff_isSome.mp haccepted)).1
  refine (List.nodup_append.mp hnodup).2.2 u.username ?_ x.1.username ?_ hname
  · exact List.mem_map_of_mem hu
  · exact List.mem_map_of_mem (f := fun x : DemoUser × String => x.1.username) hx

/-! ## What holds in a run -/

/-- The table is as it was, or has the missing demo users. -/
def Holds (hashpw : String → String → String) (demoPassword : String) (users₀ users : Users) :
    Prop :=
  users = users₀ ∨ SeededFrom hashpw demoPassword users₀ users

/-- What a process knows. While the table is as it was, what it has added and what it will find
missing are the missing demo users. -/
def Knows (hashpw : String → String → String) (demoPassword : String) (users₀ users : Users) :
    Process → Prop
  | .down => True
  | .seeding pending added =>
    (∀ spec ∈ pending, spec ∈ demoUsers) ∧ (∀ x ∈ added, x.1 ∈ missing users₀) ∧
      Hashed hashpw demoPassword added ∧
      (users = users₀ → added.map Prod.fst ++ missingOf users₀ pending = missing users₀)
  | .seeded _ => SeededFrom hashpw demoPassword users₀ users

/-- What a step does to the table: nothing, or it adds the missing demo users, of whom there are
some. -/
def Changes (hashpw : String → String → String) (demoPassword : String)
    (users₀ users users' : Users) : Prop :=
  users' = users ∨
    (users = users₀ ∧ SeededFrom hashpw demoPassword users₀ users' ∧ missing users₀ ≠ [])

/-- Adding somebody changes the table. -/
theorem SeededFrom.ne {users₀ users : Users} (h : SeededFrom hashpw demoPassword users₀ users)
    (hmissing : missing users₀ ≠ []) :
    users.rows.rows.length ≠ users₀.rows.rows.length := by
  obtain ⟨added, hadded, -, hrows⟩ := h
  have hlength : added.length = (missing users₀).length := by rw [← hadded, List.length_map]
  have hsome : (missing users₀).length ≠ 0 := fun hzero =>
    hmissing (List.length_eq_zero_iff.mp hzero)
  rw [hrows, Table.length_insertAll, rows, List.length_map]
  omega

/-- The changes that steps make break nothing that a process knows. -/
theorem Knows.changes {users₀ users users' : Users} {l : Process}
    (hchange : Changes hashpw demoPassword users₀ users users')
    (h : Knows hashpw demoPassword users₀ users l) : Knows hashpw demoPassword users₀ users' l := by
  rcases hchange with rfl | ⟨-, hseeded, hmissing⟩
  · exact h
  · cases l with
    | down => trivial
    | seeding pending added =>
      obtain ⟨hpending, hadded, hhashed, -⟩ := h
      refine ⟨hpending, hadded, hhashed, fun heq => ?_⟩
      rw [heq] at hseeded
      exact absurd rfl (hseeded.ne hmissing)
    | seeded created => exact hseeded

/-- What a step of a process keeps. -/
theorem act_spec {users₀ users users' : Users} {l l' : Process} {a : StartupAction}
    (hI : Holds hashpw demoPassword users₀ users) (hP : Knows hashpw demoPassword users₀ users l)
    (h : act hashpw demoPassword users l a = some (users', l')) :
    Holds hashpw demoPassword users₀ users' ∧ Knows hashpw demoPassword users₀ users' l' ∧
      Changes hashpw demoPassword users₀ users users' := by
  unfold act at h
  split at h
  · -- It starts.
    obtain ⟨rfl, rfl⟩ := Prod.mk.inj (Option.some.inj h)
    refine ⟨hI, ⟨fun _ hspec => hspec, fun x hx => absurd hx List.not_mem_nil,
      fun x hx => absurd hx List.not_mem_nil, fun _ => ?_⟩, Or.inl rfl⟩
    rfl
  · -- It looks a user up.
    rename_i spec pending added salt
    obtain ⟨hpending, hadded, hhashed, hall⟩ := hP
    have hrest : ∀ spec ∈ pending, spec ∈ demoUsers := fun spec hspec =>
      hpending spec (List.mem_cons_of_mem _ hspec)
    split at h
    · rename_i u hnamed
      obtain ⟨rfl, rfl⟩ := Prod.mk.inj (Option.some.inj h)
      refine ⟨hI, ⟨hrest, hadded, hhashed, fun heq => ?_⟩, Or.inl rfl⟩
      have hskip : missingOf users₀ (spec :: pending) = missingOf users₀ pending := by
        rw [missingOf, List.filter_cons_of_neg]
        · rfl
        · rw [← heq, hnamed]
          simp
      rw [← hskip]
      exact hall heq
    · rename_i hnamed
      obtain ⟨rfl, rfl⟩ := Prod.mk.inj (Option.some.inj h)
      -- A user that is missing has not been added, so the table is as it was.
      have heq : users = users₀ := by
        rcases hI with heq | hseeded
        · exact heq
        · obtain ⟨u, hu, hname, -⟩ := hseeded.row (hpending spec List.mem_cons_self)
          have hsome := named_isSome hu
          rw [hname, hnamed] at hsome
          exact absurd hsome (by decide)
      have htake : missingOf users₀ (spec :: pending) = spec :: missingOf users₀ pending := by
        rw [missingOf, List.filter_cons_of_pos]
        · rfl
        · rw [← heq, hnamed]
          rfl
      have hnew := hall heq
      rw [htake] at hnew
      refine ⟨hI, ⟨hrest, fun x hx => ?_, fun x hx => ?_, fun _ => ?_⟩, Or.inl rfl⟩
      · rcases List.mem_append.mp hx with hx | hx
        · exact hadded x hx
        · rw [List.mem_singleton.mp hx, ← hnew]
          exact List.mem_append_right _ List.mem_cons_self
      · rcases List.mem_append.mp hx with hx | hx
        · exact hhashed x hx
        · rw [List.mem_singleton.mp hx]
          exact ⟨salt, rfl⟩
      · rw [List.map_append, List.append_assoc]
        exact hnew
  · -- All users had a row.
    obtain ⟨rfl, rfl⟩ := Prod.mk.inj (Option.some.inj h)
    refine ⟨hI, ?_, Or.inl rfl⟩
    rcases hI with rfl | hseeded
    · obtain ⟨-, -, hhashed, hall⟩ := hP
      exact ⟨[], hall rfl, hhashed, rfl⟩
    · exact hseeded
  · -- The commit of what was missing.
    rename_i added hsome
    obtain ⟨-, hadded, hhashed, hall⟩ := hP
    split at h
    · rename_i inserted hinserted
      obtain ⟨rfl, rfl⟩ := Prod.mk.inj (Option.some.inj h)
      rcases hI with rfl | hseeded
      · have hcomplete : added.map Prod.fst = missing users := by
          have hnew := hall rfl
          rwa [missingOf, List.filter_nil, List.append_nil] at hnew
        have hseeded : SeededFrom hashpw demoPassword users inserted :=
          ⟨added, hcomplete, hhashed, rows_of_insertUsers hinserted⟩
        have hmissing : missing users ≠ [] := by
          rw [← hcomplete]
          exact fun hnil => hsome (List.map_eq_nil_iff.mp hnil)
        exact ⟨Or.inr hseeded, hseeded, Or.inr ⟨rfl, hseeded, hmissing⟩⟩
      · rw [hseeded.insertUsers_eq_none hadded fun hnil => hsome hnil] at hinserted
        exact absurd hinserted (by simp)
    · obtain ⟨rfl, rfl⟩ := Prod.mk.inj (Option.some.inj h)
      exact ⟨hI, trivial, Or.inl rfl⟩
  · -- It crashes.
    obtain ⟨rfl, rfl⟩ := Prod.mk.inj (Option.some.inj h)
    exact ⟨hI, trivial, Or.inl rfl⟩
  · exact absurd h (by simp)

/-- The table and the processes in every state of a run. -/
theorem holds_of_reach {ok : Startups → ℕ × StartupAction → Prop} {users₀ : Users} {s : Startups}
    (h : Reach (step hashpw demoPassword) ok (.init users₀) s) :
    Holds hashpw demoPassword users₀ s.shared ∧
      ∀ i, Knows hashpw demoPassword users₀ s.shared (s.locals i) :=
  h.rely_guarantee (R := Changes hashpw demoPassword users₀) (Or.inl rfl) (fun _ => trivial)
    (fun _ _ _ _ _ _ hI hP hact => act_spec hI hP hact)
    (fun _ _ _ hchange hP => hP.changes hchange)

/-! ## A startup that runs alone -/

/-- No missing demo user has an email that is taken. -/
def EmailsFree (users : Users) : Prop :=
  ∀ spec ∈ missing users, ∀ u ∈ users.rows, u.email ≠ spec.email

/-- If the missing demo users have been added, then their emails were not taken. -/
theorem SeededFrom.emailsFree {users₀ users : Users}
    (h : SeededFrom hashpw demoPassword users₀ users) : EmailsFree users₀ := by
  obtain ⟨added, hadded, -, hrows⟩ := h
  intro spec hspec u hu heq
  obtain ⟨x, hx, rfl⟩ := List.mem_map.mp (hadded.symm ▸ hspec)
  have hnodup := List.pairwise_map.mpr users.email_unique
  rw [hrows, map_rows_insertAll User.email DemoUser.email fun _ _ _ => rfl] at hnodup
  refine (List.nodup_append.mp hnodup).2.2 u.email ?_ x.1.email ?_ heq
  · exact List.mem_map_of_mem hu
  · exact List.mem_map_of_mem (f := fun x : DemoUser × String => x.1.email) hx

/-- Once they have been added, no demo user is missing. -/
theorem SeededFrom.missing_eq_nil {users₀ users : Users}
    (h : SeededFrom hashpw demoPassword users₀ users) : missing users = [] := by
  refine List.eq_nil_iff_forall_not_mem.mpr fun spec hspec => ?_
  obtain ⟨hdemo, habsent⟩ := mem_missing.mp hspec
  obtain ⟨u, hu, hname, -⟩ := h.row hdemo
  exact habsent u hu hname

/-- The missing demo users can be inserted if none of their emails is taken. -/
theorem insertUsers_of_emailsFree {users : Users} (hfree : EmailsFree users)
    {added : List (DemoUser × String)} (hadded : added.map Prod.fst = missing users) :
    (insertUsers users added).isSome = true := by
  have hsub : (missing users).Sublist demoUsers := List.filter_sublist
  have hcolumn : ∀ g : DemoUser → String,
      (added.map fun x => g x.1) = (missing users).map g := fun g => by
    rw [← hadded, List.map_map]
    rfl
  refine insertUsers_isSome.mpr ⟨?_, ?_⟩
  · rw [hcolumn DemoUser.username]
    have hnew : ((missing users).map DemoUser.username).Nodup := by
      have hdemo : (demoUsers.map DemoUser.username).Nodup := by decide
      exact hdemo.sublist (hsub.map _)
    refine List.nodup_append.mpr ⟨List.pairwise_map.mpr users.username_unique, hnew, ?_⟩
    intro a ha b hb hab
    obtain ⟨u, hu, rfl⟩ := List.mem_map.mp ha
    obtain ⟨spec, hspec, rfl⟩ := List.mem_map.mp hb
    exact (mem_missing.mp hspec).2 u hu hab
  · rw [hcolumn DemoUser.email]
    have hnew : ((missing users).map DemoUser.email).Nodup := by
      have hdemo : (demoUsers.map DemoUser.email).Nodup := by decide
      exact hdemo.sublist (hsub.map _)
    refine List.nodup_append.mpr ⟨List.pairwise_map.mpr users.email_unique, hnew, ?_⟩
    intro a ha b hb hab
    obtain ⟨u, hu, rfl⟩ := List.mem_map.mp ha
    obtain ⟨spec, hspec, rfl⟩ := List.mem_map.mp hb
    exact hfree spec hspec u hu hab

/-- The step is one of a process. -/
def Of (i : ℕ) (_ : Startups) (p : ℕ × StartupAction) : Prop := p.1 = i

/-- One step of a process, which changes its own state only. -/
theorem reach_act {i : ℕ} {s : Startups} {users : Users} {l : Process} {a : StartupAction}
    (h : act hashpw demoPassword s.shared (s.locals i) a = some (users, l)) :
    ∃ t, Reach (step hashpw demoPassword) (Of i) s t ∧ t.shared = users ∧ t.locals i = l := by
  refine ⟨⟨users, Function.update s.locals i l⟩, ?_, rfl, Function.update_self _ _ _⟩
  have hstep : step hashpw demoPassword s (i, a) = some ⟨users, Function.update s.locals i l⟩ :=
    Config.step_eq_some.mpr ⟨users, l, h, rfl⟩
  have hof : Of i s (i, a) := rfl
  exact .tail .refl hof hstep

/-- The lookups of a process that runs alone find the users that are missing. -/
theorem reach_lookUps {i : ℕ} {pending : List DemoUser} {s : Startups}
    {added : List (DemoUser × String)} (h : s.locals i = .seeding pending added) :
    ∃ t found, Reach (step hashpw demoPassword) (Of i) s t ∧ t.shared = s.shared ∧
      t.locals i = .seeding [] (added ++ found) ∧
      found.map Prod.fst = missingOf s.shared pending := by
  induction pending generalizing s added with
  | nil => exact ⟨s, [], .refl, rfl, by rw [h, List.append_nil], rfl⟩
  | cons spec pending ih =>
    cases hnamed : s.shared.named spec.username with
    | some u =>
      have hact : act hashpw demoPassword s.shared (s.locals i) (.lookUp "") =
          some (s.shared, .seeding pending added) := by
        rw [h]
        simp only [act, hnamed]
      obtain ⟨t, ht, hshared, hlocal⟩ := reach_act hact
      obtain ⟨t', found, ht', hshared', hlocal', hfound⟩ := ih hlocal
      refine ⟨t', found, ht.trans ht', hshared'.trans hshared, hlocal', ?_⟩
      rw [hfound, hshared, missingOf, missingOf, List.filter_cons_of_neg]
      rw [hnamed]
      simp
    | none =>
      let hashed := hashPassword hashpw demoPassword ""
      have hact : act hashpw demoPassword s.shared (s.locals i) (.lookUp "") =
          some (s.shared, .seeding pending (added ++ [(spec, hashed)])) := by
        rw [h]
        simp only [act, hnamed, hashed]
      obtain ⟨t, ht, hshared, hlocal⟩ := reach_act hact
      obtain ⟨t', found, ht', hshared', hlocal', hfound⟩ := ih hlocal
      refine ⟨t', (spec, hashed) :: found, ht.trans ht', hshared'.trans hshared, ?_, ?_⟩
      · rw [hlocal', List.append_assoc, List.singleton_append]
      · rw [List.map_cons, hfound, hshared, missingOf, missingOf, List.filter_cons_of_pos]
        rw [hnamed]
        rfl

/-- A process that starts and runs alone completes if no missing demo user has an email that is
taken. -/
theorem completes_of_emailsFree {i : ℕ} {s : Startups} (h : s.locals i = .down)
    (hfree : EmailsFree s.shared) :
    ∃ t created, Reach (step hashpw demoPassword) (Of i) s t ∧ t.locals i = .seeded created := by
  have hstart : act hashpw demoPassword s.shared (s.locals i) .start =
      some (s.shared, .seeding demoUsers []) := by
    rw [h]
    rfl
  obtain ⟨s₁, h₁, hshared₁, hlocal₁⟩ := reach_act hstart
  obtain ⟨s₂, found, h₂, hshared₂, hlocal₂, hfound⟩ := reach_lookUps hlocal₁
  have hshared : s₂.shared = s.shared := hshared₂.trans hshared₁
  rw [hshared₁] at hfound
  have haccepted : (insertUsers s₂.shared found).isSome = true := by
    rw [hshared]
    exact insertUsers_of_emailsFree hfree hfound
  obtain ⟨users, husers⟩ := Option.isSome_iff_exists.mp haccepted
  have hfinish : ∃ users' created, act hashpw demoPassword s₂.shared (s₂.locals i) .finish =
      some (users', .seeded created) := by
    rw [hlocal₂, List.nil_append]
    cases found with
    | nil => exact ⟨s₂.shared, 0, rfl⟩
    | cons x found => exact ⟨users, (x :: found).length, by simp only [act, husers]⟩
  obtain ⟨users', created, hact⟩ := hfinish
  obtain ⟨t, ht, -, hlocal⟩ := reach_act hact
  exact ⟨t, created, (h₁.trans h₂).trans ht, hlocal⟩

/-! ## Runs -/

/-- The step adds users. -/
def adds (hashpw : String → String → String) (demoPassword : String)
    (x : Startups × (ℕ × StartupAction)) : Bool :=
  match act hashpw demoPassword x.1.shared (x.1.locals x.2.1) x.2.2 with
  | some (users, _) => decide (users.rows.rows.length ≠ x.1.shared.rows.rows.length)
  | none => false

/-- No more than one step of a run adds users. -/
theorem countP_adds_le {users₀ : Users} {steps : List (Startups × (ℕ × StartupAction))}
    {s : Startups}
    (h : Trace (step hashpw demoPassword) (fun _ _ => True) (.init users₀) steps s) :
    steps.countP (adds hashpw demoPassword) ≤ 1 := by
  have hcount := h.countP_eq (q := adds hashpw demoPassword)
    (f := fun s => if s.shared.rows.rows.length = users₀.rows.rows.length then 0 else 1)
    (if_pos rfl) ?_
  · rw [← hcount]
    split_ifs
    · exact Nat.zero_le _
    · exact le_rfl
  · rintro s ⟨i, a⟩ s' hs - hstep
    obtain ⟨users, l, hact, rfl⟩ := Config.step_eq_some.mp hstep
    obtain ⟨hI, hP⟩ := holds_of_reach hs
    obtain ⟨-, -, hchange⟩ := act_spec hI (hP i) hact
    simp only [adds, hact]
    rcases hchange with rfl | ⟨heq, hseeded, hmissing⟩
    · simp
    · have hne := hseeded.ne hmissing
      simp [heq, hne]

/-- The columns of the users, once the missing demo users have been added. -/
theorem SeededFrom.map_ofUser {users₀ users : Users}
    (h : SeededFrom hashpw demoPassword users₀ users) :
    users.rows.rows.map DemoUser.ofUser =
      users₀.rows.rows.map DemoUser.ofUser ++ missing users₀ := by
  obtain ⟨added, hadded, -, hrows⟩ := h
  rw [hrows, map_rows_insertAll DemoUser.ofUser id fun _ _ _ => rfl, ← hadded]
  rfl

/-- Concurrent startups seed the demo users once. For every table of users that satisfies its
constraints, and for any number of processes that start, look users up, commit, fail and crash in
any order: the rows that were there stay as they are, and after them there are none, or exactly one
for each demo user that was missing; no more than one commit adds users. Once a process has
completed its startup every demo user has a row, and those that were missing can log in with the
demo password, with their role. And a process that is started alone, in whatever state the others
are, completes if and only if no missing demo user had an email that was taken. -/
theorem demoUsers_of_trace {crypto : Crypto}
    (hcheck : ∀ salt, crypto.checkpw demoPassword (hashpw demoPassword salt) = some true)
    {users₀ : Users} {steps : List (Startups × (ℕ × StartupAction))} {s : Startups}
    (h : Trace (step hashpw demoPassword) (fun _ _ => True) (.init users₀) steps s) :
    users₀.rows.rows <+: s.shared.rows.rows ∧
      (s.shared.rows.rows.map DemoUser.ofUser = users₀.rows.rows.map DemoUser.ofUser ∨
        s.shared.rows.rows.map DemoUser.ofUser =
          users₀.rows.rows.map DemoUser.ofUser ++ missing users₀) ∧
      steps.countP (adds hashpw demoPassword) ≤ 1 ∧
      (∀ i created, s.locals i = .seeded created → ∀ spec ∈ demoUsers,
        ∃ u ∈ s.shared.rows, u.username = spec.username ∧
          (spec ∈ missing users₀ → DemoUser.ofUser u = spec ∧
            authenticate crypto s.shared spec.username demoPassword = some u)) ∧
      ∀ i, s.locals i = .down →
        ((∃ t created, Reach (step hashpw demoPassword) (Of i) s t ∧
          t.locals i = .seeded created) ↔ EmailsFree users₀) := by
  obtain ⟨hI, hP⟩ := holds_of_reach h.reach
  refine ⟨?_, ?_, countP_adds_le h, fun i created hi spec hspec => ?_, fun i hi => ⟨?_, ?_⟩⟩
  · rcases hI with heq | ⟨added, -, -, hrows⟩
    · rw [heq]
    · rw [hrows]
      exact Table.prefix_insertAll
  · rcases hI with heq | hseeded
    · exact Or.inl (by rw [heq])
    · exact Or.inr hseeded.map_ofUser
  · have hseeded : SeededFrom hashpw demoPassword users₀ s.shared := by
      have hknows := hP i
      rwa [hi] at hknows
    obtain ⟨u, hu, hname, hnew⟩ := hseeded.row hspec
    refine ⟨u, hu, hname, fun hmissing => ?_⟩
    obtain ⟨hcolumns, salt, hhash⟩ := hnew hmissing
    refine ⟨hcolumns, authenticate_eq_some.mpr ⟨hname ▸ Users.named_username hu, ?_⟩⟩
    rw [hhash, verifyPassword, hashPassword, hcheck]
  · rintro ⟨t, created, ht, htlocal⟩
    have hreach : Reach (step hashpw demoPassword) (fun _ _ => True) (.init users₀) t :=
      h.reach.trans (ht.mono fun _ _ _ => trivial)
    have hknows := (holds_of_reach hreach).2 i
    rw [htlocal] at hknows
    exact SeededFrom.emailsFree hknows
  · intro hfree
    refine completes_of_emailsFree hi ?_
    rcases hI with heq | hseeded
    · rw [heq]
      exact hfree
    · intro spec hspec
      rw [hseeded.missing_eq_nil] at hspec
      exact absurd hspec List.not_mem_nil

end

/-- A table without users. -/
def noUsers : Users := ⟨.empty, List.Pairwise.nil, List.Pairwise.nil⟩

/-- A process looks all users up, each with the same salt. -/
def lookUps (i : ℕ) : List (ℕ × StartupAction) :=
  (i, .start) :: demoUsers.map fun _ => (i, .lookUp "salt")

/-- Two processes look the users up before either commits. The second commit is rejected, and its
process starts again. -/
def racingStartups : List (ℕ × StartupAction) :=
  lookUps 0 ++ lookUps 1 ++ [(0, .finish), (1, .finish)] ++ lookUps 1 ++ [(1, .finish)]

/-- The table and the processes after it. -/
def raced : Startups :=
  exec (step (fun plain _ => plain) "demo1234") (fun _ _ => True) (.init noUsers) racingStartups

/-- The table has the four demo users once, the engineer can log in, and the second process has
added nobody. -/
theorem demoUsers_of_trace_racingStartups :
    raced.shared.rows.rows = Api.demoUsers.rows.rows ∧ raced.locals 1 = .seeded 0 ∧
      (execSteps (step (fun plain _ => plain) "demo1234") (fun _ _ => True) (.init noUsers)
        racingStartups).countP (adds (fun plain _ => plain) "demo1234") ≤ 1 ∧
      ∃ u ∈ raced.shared.rows, u.role = .engineer ∧
        authenticate demoCrypto raced.shared "engineer" "demo1234" = some u := by
  have hcheck : ∀ salt : String,
      demoCrypto.checkpw "demo1234" ((fun plain _ => plain) "demo1234" salt) = some true :=
    fun _ => congrArg some (decide_eq_true rfl)
  obtain ⟨-, -, hcount, hlogin, -⟩ := demoUsers_of_trace hcheck
    (exec_trace (step (fun plain _ => plain) "demo1234") (fun _ _ => True) (.init noUsers)
      racingStartups)
  have hlocal : raced.locals 1 = .seeded 0 := rfl
  have hmissing : (⟨"engineer", "Eli Engineer", "engineer@example.com", .engineer⟩ : DemoUser) ∈
      missing noUsers := by decide
  obtain ⟨u, hu, -, hnew⟩ := hlogin 1 0 hlocal _ (mem_missing.mp hmissing).1
  obtain ⟨hcolumns, hauth⟩ := hnew hmissing
  exact ⟨rfl, hlocal, hcount, u, hu, congrArg DemoUser.role hcolumns, hauth⟩

end MlopsPlatform.Startup
