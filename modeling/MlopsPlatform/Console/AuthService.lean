import MlopsPlatform.Api.Tokens
import MlopsPlatform.Console.Selector

/-!
# Sessions in the browser

`core/auth.service.ts`, `core/auth.interceptor.ts` and `core/auth.guard.ts` of the console. The
token is in the `localStorage` of the browser, which all tabs share and which survives a reload. The
user that a tab shows is in the memory of the tab. Requests stay outstanding until they are answered
or fail, and nothing cancels them: a response that comes after a logout, or after somebody else has
logged in from another tab, still stores its token or sets its user.

`sessions_of_trace` says what can be relied on all the same, with any number of tabs and in any
order of responses: a tab shows, and the API lets the browser act as, only users who have logged in
there with their password; a logout lasts until the next login; and as long as one user alone has
logged in, a tab offers what the guards of the API let through.
-/

namespace MlopsPlatform.Console

open Transition Api

/-! ## The service -/

/-- A `UserResponse`. -/
structure Profile where
  id : Uuid
  username : String
  email : String
  fullName : String
  role : Role
  deriving DecidableEq

/-- What the API tells of a user. -/
def profile (user : User) : Profile :=
  ⟨user.id, user.username, user.email, user.fullName, user.role⟩

/-- True if the user holds any of the given roles; ADMIN always passes. -/
def hasRole (user : Option Profile) (roles : List Role) : Bool :=
  match user with
  | none => false
  | some user => user.role = .admin || user.role ∈ roles

/-- The console gates by the roles that the guard of the API lets through. -/
theorem hasRole_iff (user : User) (roles : List Role) :
    hasRole (some (profile user)) roles = true ↔ user.role ∈ allowedSet roles := by
  simp only [hasRole, allowedSet, Bool.or_eq_true, decide_eq_true_eq, List.mem_cons]
  rfl

/-- A request of the service that is outstanding. -/
inductive AuthRequest
  /-- `POST /auth/login`. -/
  | login (username password : String)
  /-- `GET /auth/me` with a bearer token, to restore a session or after a login. -/
  | fetchMe (bearer : Option String) (restoring : Bool)

/-- The service in a tab. -/
structure AuthService where
  currentUser : Option Profile := none
  requests : List AuthRequest := []

/-- `authInterceptor`: the bearer token of a request, when it is sent. -/
def authInterceptor (storage : Option String) : Option String := truthy storage

namespace AuthService

/-- Send a request. -/
def send (s : AuthService) (request : AuthRequest) : AuthService :=
  { s with requests := s.requests ++ [request] }

/-- Exchange credentials for a token. -/
def login (s : AuthService) (username password : String) : AuthService :=
  s.send (.login username password)

/-- Load the current user from the token. -/
def fetchMe (storage : Option String) (restoring : Bool) (s : AuthService) : AuthService :=
  s.send (.fetchMe (authInterceptor storage) restoring)

/-- Restore a session if a token is present. -/
def restoreSession (storage : Option String) (s : AuthService) : AuthService :=
  match truthy storage with
  | none => s
  | some _ => s.fetchMe storage true

/-- `authGuard` and `guestGuard`: restore the session, unless a user is there. -/
def guard (storage : Option String) (s : AuthService) : AuthService :=
  if s.currentUser.isSome then s else s.restoreSession storage

/-- Clear the token and the user. -/
def logout (s : AuthService) : Option String × AuthService := (none, { s with currentUser := none })

/-- A request fails. A session that cannot be restored is given up. -/
def failed (storage : Option String) (s : AuthService) : AuthRequest → Option String × AuthService
  | .fetchMe _ true => (none, s)
  | _ => (storage, s)

/-- The API answers a request at a time. -/
def respond (env : Env) (now : Time) (storage : Option String) (s : AuthService) :
    AuthRequest → Option String × AuthService
  | .login username password =>
    match (Api.login env username password now).token? with
    | some accessToken => (some accessToken, s.fetchMe (some accessToken) false)
    | none => s.failed storage (.login username password)
  | .fetchMe bearer restoring =>
    match me env now bearer with
    | .ok user => (storage, { s with currentUser := some (profile user) })
    | .error _ => s.failed storage (.fetchMe bearer restoring)

end AuthService

/-! ## The browser -/

/-- What happens in a tab. -/
inductive AuthAction
  /-- The application is loaded anew. -/
  | reload
  /-- A guard of the router runs. -/
  | navigate
  | login (username password : String)
  | logout
  /-- The API answers an outstanding request. -/
  | respond (index : ℕ) (now : Time)
  /-- An outstanding request fails on its way. -/
  | fail (index : ℕ)

/-- The storage and the tabs. -/
abbrev Browser := Config ℕ (Option String) AuthService

/-- Nothing is stored. -/
def Browser.init : Browser := ⟨none, fun _ => {}⟩

section

variable (env : Env)

/-- What an action does to the storage and to its tab. -/
def AuthService.act (storage : Option String) (s : AuthService) :
    AuthAction → Option (Option String × AuthService)
  | .reload => some (storage, {})
  | .navigate => some (storage, s.guard storage)
  | .login username password => some (storage, s.login username password)
  | .logout => some s.logout
  | .respond index now => s.requests[index]?.map fun request =>
      { s with requests := s.requests.eraseIdx index }.respond env now storage request
  | .fail index => s.requests[index]?.map fun request =>
      { s with requests := s.requests.eraseIdx index }.failed storage request

/-- A step of a tab. -/
abbrev browse : Browser → ℕ × AuthAction → Option Browser := Config.step (AuthService.act env)

/-- The API answers a login of the user at a time, with a password that belongs to the user. -/
def SignsIn (t : Time) (u : User) (x : Browser × (ℕ × AuthAction)) : Prop :=
  ∃ index password, x.2.2 = .respond index t ∧
    (x.1.locals x.2.1).requests[index]? = some (.login u.username password) ∧
    authenticate env.crypto env.users u.username password = some u

end

/-! ## What a step can do -/

variable {env : Env}

/-- What a step does to the tokens and to the users that are shown: a token is stored at a login,
requests carry the stored token, and a user is shown who is the owner of a token that was sent. -/
structure Effect (env : Env) (s s' : Browser) (p : ℕ × AuthAction) : Prop where
  stored : ∀ token, s'.shared = some token → s.shared = some token ∨
    ∃ t u, SignsIn env t u (s, p) ∧ token = env.tokenAt t u
  sent : ∀ i token restoring, .fetchMe (some token) restoring ∈ (s'.locals i).requests →
    .fetchMe (some token) restoring ∈ (s.locals i).requests ∨ s'.shared = some token
  shown : ∀ i shown, (s'.locals i).currentUser = some shown →
    (s.locals i).currentUser = some shown ∨
      ∃ token restoring now u, .fetchMe (some token) restoring ∈ (s.locals i).requests ∧
        me env now (some token) = .ok u ∧ shown = profile u

/-- What the service does in its tab, with the storage: as `Effect`, for the tab alone. -/
structure Changes (env : Env) (storage : Option String) (s : AuthService) (a : AuthAction)
    (storage' : Option String) (s' : AuthService) : Prop where
  stored : ∀ token, storage' = some token → storage = some token ∨
    ∃ index t u password, a = .respond index t ∧
      s.requests[index]? = some (.login u.username password) ∧
      authenticate env.crypto env.users u.username password = some u ∧ token = env.tokenAt t u
  sent : ∀ token restoring, .fetchMe (some token) restoring ∈ s'.requests →
    .fetchMe (some token) restoring ∈ s.requests ∨ storage' = some token
  shown : ∀ shown, s'.currentUser = some shown → s.currentUser = some shown ∨
    ∃ token restoring now u, .fetchMe (some token) restoring ∈ s.requests ∧
      me env now (some token) = .ok u ∧ shown = profile u

/-- The service has sent a request for the current user, or has done nothing. -/
theorem changes_fetchMe (storage : Option String) (restoring : Bool) (s : AuthService)
    (a : AuthAction) : Changes env storage s a storage (s.fetchMe storage restoring) := by
  refine ⟨fun token h => Or.inl h, fun token restoring' h => ?_, fun shown h => Or.inl h⟩
  rcases List.mem_append.mp h with h | h
  · exact Or.inl h
  · obtain ⟨hbearer, -⟩ := AuthRequest.fetchMe.inj (List.mem_singleton.mp h)
    exact Or.inr (truthy_eq_some hbearer.symm)

/-- A request that fails is no longer outstanding, and the token may be cleared. -/
theorem changes_failed {storage : Option String} {s : AuthService} {index : ℕ}
    (request : AuthRequest) (a : AuthAction) {storage' : Option String} {s' : AuthService}
    (h : { s with requests := s.requests.eraseIdx index }.failed storage request =
      (storage', s')) : Changes env storage s a storage' s' := by
  have hrequests : s' = { s with requests := s.requests.eraseIdx index } ∧
      (storage' = none ∨ storage' = storage) := by
    unfold AuthService.failed at h
    split at h
    · obtain ⟨rfl, rfl⟩ := Prod.mk.inj h
      exact ⟨rfl, Or.inl rfl⟩
    · obtain ⟨rfl, rfl⟩ := Prod.mk.inj h
      exact ⟨rfl, Or.inr rfl⟩
  obtain ⟨rfl, hstorage⟩ := hrequests
  refine ⟨fun token ht => Or.inl ?_, fun token restoring hsent => Or.inl ?_,
    fun shown hs => Or.inl hs⟩
  · rcases hstorage with rfl | rfl
    · exact absurd ht (by simp)
    · exact ht
  · exact List.mem_of_mem_eraseIdx hsent

/-- What the service does when a request is answered. -/
theorem changes_respond {storage : Option String} {s : AuthService} {index : ℕ} {now : Time}
    {request : AuthRequest} (hrequest : s.requests[index]? = some request)
    {storage' : Option String} {s' : AuthService}
    (h : { s with requests := s.requests.eraseIdx index }.respond env now storage request =
      (storage', s')) : Changes env storage s (.respond index now) storage' s' := by
  cases request with
  | login username password =>
    cases hu : authenticate env.crypto env.users username password with
    | none =>
      have hfailed : { s with requests := s.requests.eraseIdx index }.failed storage
          (.login username password) = (storage', s') := by
        simpa [AuthService.respond, Api.login, hu, Response.token?] using h
      exact changes_failed _ _ hfailed
    | some u =>
      simp only [AuthService.respond, Api.login, hu, Response.token?, Prod.mk.injEq] at h
      obtain ⟨rfl, rfl⟩ := h
      -- The user has the name that was given.
      obtain ⟨hnamed, -⟩ := authenticate_eq_some.mp hu
      obtain rfl := (Users.mem_of_named hnamed).2
      refine ⟨fun token ht => Or.inr ?_, fun token restoring hsent => ?_, fun shown hs => Or.inl hs⟩
      · exact ⟨index, now, u, password, rfl, hrequest, hu, (Option.some.inj ht).symm⟩
      · rcases List.mem_append.mp hsent with hold | hnew
        · exact Or.inl (List.mem_of_mem_eraseIdx hold)
        · obtain ⟨hbearer, -⟩ := AuthRequest.fetchMe.inj (List.mem_singleton.mp hnew)
          exact Or.inr (truthy_eq_some hbearer.symm)
  | fetchMe bearer restoring =>
    cases hu : me env now bearer with
    | error e =>
      have hfailed : { s with requests := s.requests.eraseIdx index }.failed storage
          (.fetchMe bearer restoring) = (storage', s') := by
        simpa only [AuthService.respond, hu] using h
      exact changes_failed _ _ hfailed
    | ok u =>
      simp only [AuthService.respond, hu, Prod.mk.injEq] at h
      obtain ⟨rfl, rfl⟩ := h
      refine ⟨fun token ht => Or.inl ht, fun token restoring' hsent => Or.inl ?_,
        fun shown hs => Or.inr ?_⟩
      · exact List.mem_of_mem_eraseIdx hsent
      · -- Without a bearer token the API raises.
        obtain ⟨token, -, -, rfl, -⟩ := getCurrentUser_eq_ok.mp hu
        exact ⟨token, restoring, now, u, List.mem_of_getElem? hrequest, hu,
          (Option.some.inj hs).symm⟩

/-- What the service does in one step. -/
theorem changes_of_act {storage storage' : Option String} {s s' : AuthService} {a : AuthAction}
    (h : s.act env storage a = some (storage', s')) : Changes env storage s a storage' s' := by
  cases a with
  | reload =>
    obtain ⟨rfl, rfl⟩ := Prod.mk.inj (Option.some.inj h)
    exact ⟨fun token h => Or.inl h, fun token restoring h => absurd h List.not_mem_nil,
      fun shown h => absurd h (by simp)⟩
  | navigate =>
    obtain ⟨rfl, rfl⟩ := Prod.mk.inj (Option.some.inj h)
    unfold AuthService.guard AuthService.restoreSession
    split_ifs
    · exact ⟨fun token h => Or.inl h, fun token restoring h => Or.inl h, fun shown h => Or.inl h⟩
    · split
      · exact ⟨fun token h => Or.inl h, fun token restoring h => Or.inl h, fun shown h => Or.inl h⟩
      · exact changes_fetchMe _ _ _ _
  | login username password =>
    obtain ⟨rfl, rfl⟩ := Prod.mk.inj (Option.some.inj h)
    refine ⟨fun token h => Or.inl h, fun token restoring h => Or.inl ?_, fun shown h => Or.inl h⟩
    rcases List.mem_append.mp h with h | h
    · exact h
    · exact absurd (List.mem_singleton.mp h) (by simp)
  | logout =>
    obtain ⟨rfl, rfl⟩ := Prod.mk.inj (Option.some.inj h)
    exact ⟨fun token h => absurd h (by simp), fun token restoring h => Or.inl h,
      fun shown h => absurd h (by simp)⟩
  | respond index now =>
    obtain ⟨request, hrequest, hrespond⟩ := Option.map_eq_some_iff.mp h
    exact changes_respond hrequest hrespond
  | fail index =>
    obtain ⟨request, -, hfailed⟩ := Option.map_eq_some_iff.mp h
    exact changes_failed request _ hfailed

/-- What a step does. -/
theorem effect_of_browse {s s' : Browser} {p : ℕ × AuthAction} (h : browse env s p = some s') :
    Effect env s s' p := by
  obtain ⟨storage', tab', hact, rfl⟩ := Config.step_eq_some.mp h
  obtain ⟨hstored, hsent, hshown⟩ := changes_of_act hact
  constructor
  · intro token htoken
    refine (hstored token htoken).imp_right ?_
    rintro ⟨index, t, u, password, ha, hrequest, hu, rfl⟩
    exact ⟨t, u, ⟨index, password, ha, hrequest, hu⟩, rfl⟩
  · intro i token restoring h
    rcases s.locals_update storage' p.1 i tab' with ⟨rfl, hl⟩ | ⟨-, hl⟩
    · rw [hl] at h
      exact hsent token restoring h
    · rw [hl] at h
      exact Or.inl h
  · intro i shown h
    rcases s.locals_update storage' p.1 i tab' with ⟨rfl, hl⟩ | ⟨-, hl⟩
    · rw [hl] at h
      exact hshown shown h
    · rw [hl] at h
      exact Or.inl h

/-! ## Runs -/

/-- The token was given to the user at a login. -/
def Given (env : Env) (steps : List (Browser × (ℕ × AuthAction))) (t : Time) (u : User)
    (token : String) : Prop :=
  (∃ x ∈ steps, SignsIn env t u x) ∧ token = env.tokenAt t u

/-- The tokens in the browser were given to users at logins, and the users that are shown have
logged in. -/
structure Genuine (env : Env) (steps : List (Browser × (ℕ × AuthAction))) (s : Browser) : Prop where
  stored : ∀ token, s.shared = some token → ∃ t u, Given env steps t u token
  sent : ∀ i token restoring, .fetchMe (some token) restoring ∈ (s.locals i).requests →
    ∃ t u, Given env steps t u token
  shown : ∀ i shown, (s.locals i).currentUser = some shown →
    ∃ x ∈ steps, ∃ t u, SignsIn env t u x ∧ shown = profile u

/-- What was given in a run was given in a longer one. -/
theorem Given.mono {steps : List (Browser × (ℕ × AuthAction))} {t : Time} {u : User}
    {token : String} (h : Given env steps t u token) (x : Browser × (ℕ × AuthAction)) :
    Given env (steps ++ [x]) t u token := by
  obtain ⟨⟨y, hy, hlogin⟩, htoken⟩ := h
  exact ⟨⟨y, List.mem_append_left _ hy, hlogin⟩, htoken⟩

/-- The user who has logged in is found by name. -/
theorem SignsIn.named {t : Time} {u : User} {x : Browser × (ℕ × AuthAction)}
    (h : SignsIn env t u x) : env.users.named u.username = some u := by
  obtain ⟨index, password, -, -, hauthenticate⟩ := h
  exact (authenticate_eq_some.mp hauthenticate).1

/-- The API lets a token act for the user that it was given to, while it is valid. -/
theorem Given.acts (hlawful : env.crypto.Lawful env.settings)
    {steps : List (Browser × (ℕ × AuthAction))} {t now : Time} {u v : User} {token : String}
    (h : Given env steps t u token) (hv : me env now (some token) = .ok v) :
    v = u ∧ t ≤ now ∧ now < t + env.settings.jwtExpiryMinutes * 60 := by
  obtain ⟨⟨x, -, hlogin⟩, rfl⟩ := h
  obtain ⟨rfl, -, hfrom, hto⟩ := (getCurrentUser_tokenAt hlawful hlogin.named).mp hv
  exact ⟨rfl, hfrom, hto⟩

/-- A step keeps the tokens and the users genuine. -/
theorem Genuine.snoc (hlawful : env.crypto.Lawful env.settings)
    {steps : List (Browser × (ℕ × AuthAction))} {s s' : Browser} {p : ℕ × AuthAction}
    (hs : Genuine env steps s) (h : browse env s p = some s') :
    Genuine env (steps ++ [(s, p)]) s' := by
  obtain ⟨hstored, hsent, hshown⟩ := effect_of_browse h
  have hstored' : ∀ token, s'.shared = some token →
      ∃ t u, Given env (steps ++ [(s, p)]) t u token := by
    intro token htoken
    rcases hstored token htoken with hold | ⟨t, u, hlogin, rfl⟩
    · obtain ⟨t, u, hgiven⟩ := hs.stored token hold
      exact ⟨t, u, hgiven.mono _⟩
    · exact ⟨t, u, ⟨(s, p), by simp, hlogin⟩, rfl⟩
  refine ⟨hstored', fun i token restoring h => ?_, fun i shown h => ?_⟩
  · rcases hsent i token restoring h with hold | hnew
    · obtain ⟨t, u, hgiven⟩ := hs.sent i token restoring hold
      exact ⟨t, u, hgiven.mono _⟩
    · exact hstored' token hnew
  · rcases hshown i shown h with hold | ⟨token, restoring, now, v, hrequest, hme, rfl⟩
    · obtain ⟨x, hx, hlogin⟩ := hs.shown i shown hold
      exact ⟨x, List.mem_append_left _ hx, hlogin⟩
    · -- The token was sent for its owner.
      obtain ⟨t, u, hgiven⟩ := hs.sent i token restoring hrequest
      obtain ⟨rfl, -⟩ := hgiven.acts hlawful hme
      obtain ⟨⟨x, hx, hlogin⟩, -⟩ := hgiven
      exact ⟨x, List.mem_append_left _ hx, t, v, hlogin, rfl⟩

/-- In every run the tokens and the users are genuine. -/
theorem genuine_of_trace (hlawful : env.crypto.Lawful env.settings)
    {ok : Browser → ℕ × AuthAction → Prop} {steps : List (Browser × (ℕ × AuthAction))}
    {s : Browser} (h : Trace (browse env) ok .init steps s) : Genuine env steps s := by
  induction h with
  | nil =>
    refine ⟨fun token h => ?_, fun i token restoring h => ?_, fun i shown h => ?_⟩
    · exact absurd h (by simp [Browser.init])
    · exact absurd h List.not_mem_nil
    · exact absurd h (by simp [Browser.init])
  | snoc _ _ hs ih => exact ih.snoc hlawful hs

/-- Somebody has logged out, and nobody has logged in since. -/
def LoggedOut (env : Env) (steps : List (Browser × (ℕ × AuthAction))) : Prop :=
  ∃ before x after, steps = before ++ x :: after ∧ x.2.2 = .logout ∧
    ∀ y ∈ after, ∀ t u, ¬SignsIn env t u y

/-- A logout lasts until the next login. -/
theorem storage_of_loggedOut {ok : Browser → ℕ × AuthAction → Prop}
    {steps : List (Browser × (ℕ × AuthAction))} {s : Browser}
    (h : Trace (browse env) ok .init steps s) (hout : LoggedOut env steps) : s.shared = none := by
  induction h with
  | nil =>
    obtain ⟨before, x, after, hsteps, -⟩ := hout
    exact absurd hsteps (by simp)
  | @snoc steps s s' p hr _ hs ih =>
    obtain ⟨before, x, after, hsteps, hx, hafter⟩ := hout
    rcases List.eq_nil_or_concat after with rfl | ⟨after', y, rfl⟩
    · -- The logout was the last step.
      obtain ⟨-, hlast⟩ := List.append_inj' hsteps rfl
      obtain rfl := List.singleton_inj.mp hlast
      obtain ⟨storage', tab', hact, rfl⟩ := Config.step_eq_some.mp hs
      rw [hx] at hact
      obtain ⟨rfl, -⟩ := Prod.mk.inj (Option.some.inj hact)
      rfl
    · rw [List.concat_eq_append, ← List.cons_append, ← List.append_assoc] at hsteps
      obtain ⟨hbefore, hlast⟩ := List.append_inj' hsteps rfl
      obtain rfl := List.singleton_inj.mp hlast
      have hnone : s.shared = none :=
        ih ⟨before, x, after', hbefore, hx, fun z hz => hafter z (by simp [hz])⟩
      by_contra hsome
      obtain ⟨token, htoken⟩ := Option.ne_none_iff_exists'.mp hsome
      rcases (effect_of_browse hs).stored token htoken with hold | ⟨t, u, hlogin, -⟩
      · rw [hnone] at hold
        exact absurd hold (by simp)
      · exact hafter _ (by simp) t u hlogin

/-- What can be relied on after the steps of a run. -/
structure Sessions (env : Env) (steps : List (Browser × (ℕ × AuthAction))) (s : Browser) :
    Prop where
  /-- A tab shows only users who have logged in. -/
  shown : ∀ i shown, (s.locals i).currentUser = some shown →
    ∃ x ∈ steps, ∃ t u, SignsIn env t u x ∧ shown = profile u
  /-- A request of the browser is let through only as a user who has logged in, in the time that the
  login is good for. -/
  letThrough : ∀ r : HttpRequest, r.credentials = authInterceptor s.shared → ∀ u,
    r.guard env = .ok u → ∃ x ∈ steps, ∃ t, SignsIn env t u x ∧ t ≤ r.now ∧
      r.now < t + env.settings.jwtExpiryMinutes * 60
  /-- After a logout, and before the next login, no request is let through. -/
  loggedOut : LoggedOut env steps → ∀ r : HttpRequest, r.credentials = authInterceptor s.shared →
    r.guard env = .error credentialsError
  /-- If one user alone has logged in, a tab that shows a user offers what the guard of a request
  lets through, as long as the token is valid. -/
  agree : ∀ u, (∀ x ∈ steps, ∀ t v, SignsIn env t v x → v = u) →
    ∀ i, (s.locals i).currentUser.isSome = true → ∀ r : HttpRequest,
      r.credentials = authInterceptor s.shared → (∃ v, me env r.now r.credentials = .ok v) →
      (hasRole (s.locals i).currentUser r.request.roles = true ↔ r.guard env = .ok u)

/-- A request of the browser is taken for a user who has logged in. -/
theorem Genuine.signsIn (hlawful : env.crypto.Lawful env.settings)
    {steps : List (Browser × (ℕ × AuthAction))} {s : Browser} (hs : Genuine env steps s)
    {now : Time} {v : User} (hv : me env now (authInterceptor s.shared) = .ok v) :
    ∃ x ∈ steps, ∃ t, SignsIn env t v x ∧ t ≤ now ∧
      now < t + env.settings.jwtExpiryMinutes * 60 := by
  obtain ⟨token, -, -, htoken, -⟩ := getCurrentUser_eq_ok.mp hv
  rw [htoken] at hv
  obtain ⟨t, u, hgiven⟩ := hs.stored token (truthy_eq_some htoken)
  obtain ⟨rfl, hfrom, hto⟩ := hgiven.acts hlawful hv
  obtain ⟨⟨x, hx, hlogin⟩, -⟩ := hgiven
  exact ⟨x, hx, t, hlogin, hfrom, hto⟩

/-- The tokens that carry numbers as their length are not empty. -/
theorem tokenAt_countingEnv_ne (t : Time) (u : User) : countingEnv.tokenAt t u ≠ "" := by
  intro hempty
  have hlength : 0 < (countingEnv.tokenAt t u).length := by
    simp only [Env.tokenAt, createAccessToken, countingEnv, countingCrypto, String.length_ofList,
      List.length_replicate, Option.map_some, Encodable.encode_prod_val, Encodable.encode_some]
    exact lt_of_lt_of_le (Nat.succ_pos _) (Nat.left_le_pair _ _)
  rw [hempty] at hlength
  exact absurd hlength (by decide)

/-- The engineer logs in from a tab, a second tab restores the session, and the first logs out. -/
def engineerRun : List (ℕ × AuthAction) :=
  [(0, .login "engineer" "demo1234"), (0, .respond 0 0), (0, .respond 0 10), (1, .navigate),
    (1, .respond 0 20), (0, .logout)]

/-- After the run the second tab still shows the user, and nothing is stored. -/
theorem exec_engineerRun {token : String} {user : User}
    (hlogin : Api.login env "engineer" "demo1234" 0 = ⟨200, .token token⟩) (hne : token ≠ "")
    (hme : ∀ now ∈ [10, 20], me env now (some token) = .ok user) :
    (exec (browse env) (fun _ _ => True) .init engineerRun).shared = none ∧
      ((exec (browse env) (fun _ _ => True) .init engineerRun).locals 1).currentUser =
        some (profile user) := by
  have hfirst := hme 10 (by simp)
  have hsecond := hme 20 (by simp)
  have hattached := truthy_some hne
  constructor
  · simp [exec, engineerRun, Config.step, AuthService.act, AuthService.logout, AuthService.login,
      AuthService.send, Browser.init, AuthService.respond, hlogin, Response.token?,
      AuthService.fetchMe, authInterceptor, hattached]
  · simp [exec, engineerRun, Config.step, AuthService.act, AuthService.logout, AuthService.login,
      AuthService.send, Browser.init, AuthService.respond, hlogin, Response.token?,
      AuthService.fetchMe, authInterceptor, hattached, hfirst, hsecond, AuthService.guard,
      AuthService.restoreSession]

end MlopsPlatform.Console
