import Mathlib.Logic.Encodable.Basic
import Mathlib.Logic.Equiv.List
import MlopsPlatform.Api.Routes

/-!
# Tokens over whole runs

A token is good for the user who has logged in for it, from the login on and for
`jwt_expiry_minutes`. `Crypto.Lawful` is what the server relies on of PyJWT: a token that it has
signed decodes to its claims, between `iat` and `exp` and at no other time. `Unforged` is what it
relies on of the secret: a token that decodes was handed out by the server. The second is a
condition on the run, since nothing about a single token tells who has made it.
-/

namespace MlopsPlatform.Api

open Transition

/-- A signed token decodes to its claims while it is valid, and not at all outside that time. -/
def Crypto.Lawful (crypto : Crypto) (settings : Settings) : Prop :=
  ∀ (payload : Payload) (now : Time),
    crypto.decode now (crypto.encode payload settings.jwtSecret settings.jwtAlgorithm)
        settings.jwtSecret [settings.jwtAlgorithm] =
      if payload.iat ≤ now ∧ now < payload.exp then some payload else none

/-- A request whose token decodes presents one that was handed out. -/
def Unforged (env : Env) (s : Server) (p : ℕ × ServerAction) : Prop :=
  ∀ r token payload, p.2 = .request r → r.credentials = some token →
    decodeAccessToken env.crypto env.settings r.now token = some payload → token ∈ s.issued

/-- The token that a user is given at a time. -/
def Env.tokenAt (env : Env) (t : Time) (u : User) : String :=
  createAccessToken env.crypto env.settings t u.username u.role.value

/-- The step is a login of a user at a time, with a password that belongs to the user. -/
def LogsIn (env : Env) (t : Time) (u : User) (x : Server × (ℕ × ServerAction)) : Prop :=
  ∃ password, x.2.2 = .login u.username password t ∧
    authenticate env.crypto env.users u.username password = some u

variable {env : Env}

/-- The user who logs in is found by name. -/
theorem LogsIn.named {t : Time} {u : User} {x : Server × (ℕ × ServerAction)}
    (h : LogsIn env t u x) : env.users.named u.username = some u := by
  obtain ⟨password, -, hauthenticate⟩ := h
  exact (authenticate_eq_some.mp hauthenticate).1

/-- A step hands a token out only to a user who logs in. -/
theorem logsIn_of_issues {x : Server × (ℕ × ServerAction)} {token : String}
    (h : token ∈ x.2.2.issues env) : ∃ t u, LogsIn env t u x ∧ token = env.tokenAt t u := by
  obtain ⟨s, i, a⟩ := x
  cases a with
  | login username password now =>
    cases hu : authenticate env.crypto env.users username password with
    | none => simp [ServerAction.issues, login, hu, Response.token?] at h
    | some u =>
      have htoken : token = env.tokenAt now u := by
        simpa [ServerAction.issues, login, hu, Response.token?, Env.tokenAt] using h
      -- The user has the name that was given.
      obtain ⟨hnamed, -⟩ := authenticate_eq_some.mp hu
      obtain rfl := (Users.mem_of_named hnamed).2
      exact ⟨now, u, ⟨password, rfl, hu⟩, htoken⟩
  | request r => simp [ServerAction.issues] at h
  | proceed a => simp [ServerAction.issues] at h

/-- Every token that a run has handed out was handed out at a login. -/
theorem logsIn_of_issued {ok : Server → ℕ × ServerAction → Prop}
    {steps : List (Server × (ℕ × ServerAction))} {s : Server}
    (h : Trace (serve env) ok .init steps s) {token : String} (htoken : token ∈ s.issued) :
    ∃ x ∈ steps, ∃ t u, LogsIn env t u x ∧ token = env.tokenAt t u := by
  induction h with
  | nil => exact absurd htoken List.not_mem_nil
  | @snoc steps s s' p hr _ hs ih =>
    have hold : token ∈ s.issued → ∃ x ∈ steps ++ [(s, p)], ∃ t u, LogsIn env t u x ∧
        token = env.tokenAt t u := by
      intro hmem
      obtain ⟨x, hx, hlogin⟩ := ih hmem
      exact ⟨x, List.mem_append_left _ hx, hlogin⟩
    rcases serve_cases hs with ⟨a, -, -, hissued⟩ | ⟨-, -, hissued⟩
    · rw [hissued] at htoken
      exact hold htoken
    · rw [hissued, List.mem_append] at htoken
      rcases htoken with hmem | hnew
      · exact hold hmem
      · exact ⟨(s, p), by simp, logsIn_of_issues hnew⟩

/-- A token decodes to the user that it was made for, while it is valid. -/
theorem decode_tokenAt (hlawful : env.crypto.Lawful env.settings) (t now : Time) (u : User)
    (payload : Payload) :
    decodeAccessToken env.crypto env.settings now (env.tokenAt t u) = some payload ↔
      t ≤ now ∧ now < t + env.settings.jwtExpiryMinutes * 60 ∧
        payload = ⟨some u.username, u.role.value, t, t + env.settings.jwtExpiryMinutes * 60⟩ := by
  unfold decodeAccessToken Env.tokenAt createAccessToken
  rw [hlawful]
  constructor
  · intro h
    split_ifs at h with hvalid
    exact ⟨hvalid.1, hvalid.2, (Option.some.inj h).symm⟩
  · rintro ⟨hfrom, hto, rfl⟩
    rw [if_pos ⟨hfrom, hto⟩]

/-- A user's token is good for the user alone, while it is valid. -/
theorem getCurrentUser_tokenAt (hlawful : env.crypto.Lawful env.settings) {t now : Time}
    {u v : User} (hv : env.users.named v.username = some v) :
    getCurrentUser env.crypto env.settings env.users now (some (env.tokenAt t v)) = .ok u ↔
      u = v ∧ v.username ≠ "" ∧ t ≤ now ∧ now < t + env.settings.jwtExpiryMinutes * 60 := by
  rw [getCurrentUser_eq_ok]
  constructor
  · rintro ⟨token, payload, username, htoken, hdecode, hsub, hempty, hnamed⟩
    obtain rfl := Option.some.inj htoken
    obtain ⟨hfrom, hto, rfl⟩ := (decode_tokenAt hlawful t now v payload).mp hdecode
    obtain rfl := Option.some.inj hsub
    exact ⟨Option.some.inj (hnamed.symm.trans hv), hempty, hfrom, hto⟩
  · rintro ⟨rfl, hempty, hfrom, hto⟩
    exact ⟨_, _, u.username, rfl, (decode_tokenAt hlawful t now u _).mpr ⟨hfrom, hto, rfl⟩, rfl,
      hempty, hv⟩

/-- In every run in which no token is forged, a request is let through for a user exactly if it
brings a token that the user was given at a login with the password, in the time before it that
`jwt_expiry_minutes` says, and if the user has one of the route's roles. -/
theorem letThrough_iff_loggedIn (hlawful : env.crypto.Lawful env.settings)
    {steps : List (Server × (ℕ × ServerAction))} {s : Server}
    (h : Trace (serve env) (Unforged env) .init steps s) {i : ℕ} {r : HttpRequest}
    (hunforged : Unforged env s (i, .request r)) (u : User) :
    r.guard env = .ok u ↔ u.username ≠ "" ∧ u.role ∈ allowedSet r.request.roles ∧
      ∃ token t, r.credentials = some token ∧ token ∈ s.issued ∧ token = env.tokenAt t u ∧
        (∃ x ∈ steps, LogsIn env t u x) ∧
        t ≤ r.now ∧ r.now < t + env.settings.jwtExpiryMinutes * 60 := by
  unfold HttpRequest.guard
  rw [guardRoles_eq_ok]
  constructor
  · rintro ⟨huser, hrole⟩
    obtain ⟨token, payload, username, htoken, hdecode, -⟩ := getCurrentUser_eq_ok.mp huser
    have hissued := hunforged r token payload rfl htoken hdecode
    obtain ⟨x, hx, t, v, hlogin, rfl⟩ := logsIn_of_issued h hissued
    -- The token names the user who has logged in.
    rw [htoken, getCurrentUser_tokenAt hlawful hlogin.named] at huser
    obtain ⟨rfl, hempty, hfrom, hto⟩ := huser
    exact ⟨hempty, hrole, _, t, htoken, hissued, rfl, ⟨x, hx, hlogin⟩, hfrom, hto⟩
  · rintro ⟨hempty, hrole, token, t, htoken, -, rfl, ⟨x, -, hlogin⟩, hfrom, hto⟩
    rw [htoken, getCurrentUser_tokenAt hlawful hlogin.named]
    exact ⟨⟨rfl, hempty, hfrom, hto⟩, hrole⟩

/-! ## A lawful encoding -/

/-- The characters of a string by their numbers. -/
def charCodes (s : String) : List ℕ := s.toList.map Char.toNat

/-- The string of the characters with the given numbers. -/
def ofCharCodes (codes : List ℕ) : String := String.ofList (codes.map Char.ofNat)

/-- A string comes back from its character codes. -/
theorem ofCharCodes_charCodes (s : String) : ofCharCodes (charCodes s) = s := by
  simp [ofCharCodes, charCodes, Function.comp_def]

/-- A token that carries the number of its claims as its length, and that nobody else can make as
long as nobody counts. -/
def countingCrypto : Crypto where
  encode payload _ _ := String.ofList (List.replicate
    (Encodable.encode (payload.sub.map charCodes, charCodes payload.role, payload.iat, payload.exp))
    '.')
  decode now token _ _ :=
    match (Encodable.decode token.length : Option (Option (List ℕ) × List ℕ × ℤ × ℤ)) with
    | some (sub, role, iat, exp) =>
      if iat ≤ now ∧ now < exp then some ⟨sub.map ofCharCodes, ofCharCodes role, iat, exp⟩ else none
    | none => none
  checkpw plain hashed := some (decide (plain = hashed))

/-- Its tokens decode to their claims while they are valid. -/
theorem countingCrypto_lawful (settings : Settings) : countingCrypto.Lawful settings := by
  intro payload now
  have hsub : (payload.sub.map charCodes).map ofCharCodes = payload.sub := by
    cases payload.sub <;> simp [ofCharCodes_charCodes]
  simp only [countingCrypto, String.length_ofList, List.length_replicate, Encodable.encodek, hsub,
    ofCharCodes_charCodes]

/-- A server with the demo users and these tokens. -/
def countingEnv : Env := ⟨id, countingCrypto, {}, demoUsers⟩

/-- The demo engineer. -/
def demoEngineer : User :=
  ⟨3, "engineer", "engineer@example.com", "Eli Engineer", "demo1234", .engineer⟩

/-- The demo engineer logs in with the demo password. -/
theorem authenticate_demoEngineer :
    authenticate countingCrypto demoUsers "engineer" "demo1234" = some demoEngineer :=
  authenticate_eq_some.mpr ⟨rfl, rfl⟩

/-- The engineer logs in at time 0, and is let through at time 10. -/
theorem letThrough_iff_loggedIn_demoEngineer :
    (⟨.retryDeployment 1, some (countingEnv.tokenAt 0 demoEngineer), none, someGeneratedId, 10⟩ :
      HttpRequest).guard countingEnv = .ok demoEngineer := by
  have hissues : (ServerAction.login "engineer" "demo1234" 0).issues countingEnv =
      [countingEnv.tokenAt 0 demoEngineer] := by
    have hauthenticate : authenticate countingEnv.crypto countingEnv.users "engineer" "demo1234" =
        some demoEngineer := authenticate_demoEngineer
    simp only [ServerAction.issues, login, hauthenticate, Response.token?, Option.toList_some]
    rfl
  have htrace : Trace (serve countingEnv) (Unforged countingEnv) .init
      ([] ++ [(.init, (0, .login "engineer" "demo1234" 0))])
      ⟨.init, [] ++ (ServerAction.login "engineer" "demo1234" 0).issues countingEnv⟩ := by
    refine Trace.nil.snoc ?_ rfl
    intro r token payload hr
    exact absurd hr (by simp)
  have hlawful : countingEnv.crypto.Lawful countingEnv.settings := countingCrypto_lawful _
  refine (letThrough_iff_loggedIn (i := 0) hlawful htrace ?_ demoEngineer).mpr ?_
  · rintro r token payload hr htoken -
    obtain rfl := ServerAction.request.inj hr
    obtain rfl := Option.some.inj htoken
    rw [hissues]
    exact List.mem_singleton_self _
  · have hlogin : ∃ x ∈ [(Server.init, ((0 : ℕ), ServerAction.login "engineer" "demo1234" 0))],
        LogsIn countingEnv 0 demoEngineer x :=
      ⟨_, List.mem_singleton_self _, "demo1234", rfl, authenticate_demoEngineer⟩
    refine ⟨by decide, by decide, _, 0, rfl, ?_, rfl, hlogin, by decide, by decide⟩
    rw [hissues]
    exact List.mem_singleton_self _

end MlopsPlatform.Api
