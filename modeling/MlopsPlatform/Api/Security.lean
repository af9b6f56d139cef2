import MlopsPlatform.Models

/-!
# Users, tokens, and guards

`models/user.py`, `core/security.py`, `services/auth_service.py` and `api/deps.py`. PyJWT and bcrypt
are parameters (`Crypto`): `decode` reads the clock, and has no result where PyJWT raises; `checkpw`
has none where bcrypt raises a `ValueError`. A request is let through by the role that the user's
row has when it arrives. The role in the token is not looked at.
-/

namespace MlopsPlatform.Api

/-! ## Users -/

/-- User roles. -/
inductive Role
  | viewer | engineer | approver | admin
  deriving DecidableEq

/-- The role as it is stored and printed. -/
def Role.value : Role → String
  | viewer => "VIEWER"
  | engineer => "ENGINEER"
  | approver => "APPROVER"
  | admin => "ADMIN"

/-- A user. -/
structure User where
  id : Uuid
  username : String
  email : String
  fullName : String
  hashedPassword : String
  role : Role

/-- The table of the users. `users.username` and `users.email` are unique. -/
structure Users where
  rows : Table User.id
  username_unique : rows.rows.Pairwise fun a b => a.username ≠ b.username
  email_unique : rows.rows.Pairwise fun a b => a.email ≠ b.email

/-- The user with a name. -/
def Users.named (users : Users) (username : String) : Option User :=
  users.rows.first? fun u => u.username = username

/-- A user is found by name in the table. -/
theorem Users.mem_of_named {users : Users} {username : String} {u : User}
    (h : users.named username = some u) : u ∈ users.rows ∧ u.username = username := by
  obtain ⟨hmem, hname, -⟩ := Table.first?_eq_some.mp h
  exact ⟨hmem, of_decide_eq_true hname⟩

/-- Every user is found by name: no two have the same. -/
theorem Users.named_username {users : Users} {u : User} (h : u ∈ users.rows) :
    users.named u.username = some u := by
  cases hfind : users.named u.username with
  | none =>
    have hmiss := Table.first?_eq_none.mp hfind u h
    simp at hmiss
  | some v =>
    obtain ⟨hv, hname⟩ := Users.mem_of_named hfind
    by_contra hne
    have hdiffer := (Table.pairwise_iff fun _ _ hab => hab.symm).mp users.username_unique
    refine hdiffer v hv u h (fun hid => hne ?_) hname
    rw [users.rows.eq_of_key_eq hv h hid]

/-! ## Tokens -/

/-- The claims of a token. -/
structure Payload where
  sub : Option String
  role : String
  iat : Time
  exp : Time
  deriving DecidableEq

/-- What is used of PyJWT and of bcrypt. -/
structure Crypto where
  /-- `jwt.encode(payload, secret, algorithm)`. -/
  encode : Payload → String → String → String
  /-- `jwt.decode(token, secret, algorithms)` at a point in time. -/
  decode : Time → String → String → List String → Option Payload
  /-- `bcrypt.checkpw(plain, hashed)`. -/
  checkpw : String → String → Option Bool

/-- The settings of the API. -/
structure Settings where
  jwtSecret : String := "dev-insecure-change-me-please-32byte-minimum-secret"
  jwtAlgorithm : String := "HS256"
  jwtExpiryMinutes : ℕ := 480

section

variable (crypto : Crypto) (settings : Settings)

/-- Whether a password belongs to a hash. -/
def verifyPassword (plain hashed : String) : Bool :=
  match crypto.checkpw plain hashed with
  | some belongs => belongs
  | none => false

/-- Issue a signed token for a user name and a role. -/
def createAccessToken (now : Time) (subject role : String) : String :=
  let payload :=
    { sub := some subject, role, iat := now, exp := now + settings.jwtExpiryMinutes * 60 }
  crypto.encode payload settings.jwtSecret settings.jwtAlgorithm

/-- Decode and validate a token. -/
def decodeAccessToken (now : Time) (token : String) : Option Payload :=
  crypto.decode now token settings.jwtSecret [settings.jwtAlgorithm]

/-- The user if the credentials are valid. -/
def authenticate (users : Users) (username password : String) : Option User :=
  match users.named username with
  | none => none
  | some user => if !verifyPassword crypto password user.hashedPassword then none else some user

/-! ## Guards -/

/-- An `HTTPException`. -/
structure HttpException where
  status : ℕ
  detail : String
  headers : List (String × String) := []

/-- `_CREDENTIALS_ERROR`. -/
def credentialsError : HttpException where
  status := 401
  detail := "Could not validate credentials"
  headers := [("WWW-Authenticate", "Bearer")]

/-- Resolve the authenticated user from the bearer token. -/
def getCurrentUser (users : Users) (now : Time) (credentials : Option String) :
    Except HttpException User :=
  match credentials with
  | none => .error credentialsError
  | some token =>
    match decodeAccessToken crypto settings now token with
    | none => .error credentialsError
    | some payload =>
      match payload.sub with
      | none => .error credentialsError
      | some username =>
        if username = "" then .error credentialsError
        else
          match users.named username with
          | none => .error credentialsError
          | some user => .ok user

/-- The roles that a guard lets through: ADMIN is always permitted. -/
def allowedSet (allowed : List Role) : List Role := .admin :: allowed

/-- The message of a role that is not let through. -/
def roleError (allowed : List Role) (role : Role) : String :=
  let names := ((allowedSet allowed).map Role.value).dedup.mergeSort fun a b => decide (a ≤ b)
  let printed := ", ".intercalate (names.map fun name => s!"'{name}'")
  s!"Role '{role.value}' is not permitted for this action; requires one of [{printed}]"

/-- The guard of `require_roles`. -/
def requireRoles (allowed : List Role) (user : User) : Except HttpException User :=
  if user.role ∉ allowedSet allowed then
    .error { status := 403, detail := roleError allowed user.role }
  else .ok user

/-- The guard of a route: the current user, with one of the roles. -/
def guardRoles (users : Users) (now : Time) (credentials : Option String) (allowed : List Role) :
    Except HttpException User := do
  let user ← getCurrentUser crypto settings users now credentials
  requireRoles allowed user

end

variable {crypto : Crypto} {settings : Settings}

/-- A login succeeds with the name of a user and a password that belongs to the hash. -/
theorem authenticate_eq_some {users : Users} {username password : String} {u : User} :
    authenticate crypto users username password = some u ↔
      users.named username = some u ∧ verifyPassword crypto password u.hashedPassword = true := by
  unfold authenticate
  cases hu : users.named username with
  | none => simp
  | some v =>
    simp only [Option.some.injEq]
    constructor
    · intro h
      split_ifs at h with hp
      obtain rfl := Option.some.inj h
      exact ⟨rfl, by simpa using hp⟩
    · rintro ⟨rfl, hp⟩
      simp [hp]

/-- The current user is the one that a valid token names. -/
theorem getCurrentUser_eq_ok {users : Users} {now : Time} {credentials : Option String} {u : User} :
    getCurrentUser crypto settings users now credentials = .ok u ↔
      ∃ token payload username, credentials = some token ∧
        decodeAccessToken crypto settings now token = some payload ∧
        payload.sub = some username ∧ username ≠ "" ∧ users.named username = some u := by
  unfold getCurrentUser
  constructor
  · intro h
    split at h
    · exact absurd h (by simp)
    · rename_i token
      split at h
      · exact absurd h (by simp)
      · rename_i payload hpayload
        split at h
        · exact absurd h (by simp)
        · rename_i username husername
          split_ifs at h with hempty
          split at h
          · exact absurd h (by simp)
          · rename_i user huser
            obtain rfl := Except.ok.inj h
            exact ⟨token, payload, username, rfl, hpayload, husername, hempty, huser⟩
  · rintro ⟨token, payload, username, rfl, hpayload, husername, hempty, huser⟩
    simp only [hpayload, husername, if_neg hempty, huser]

/-- The guard of `require_roles` lets a user through who has one of the roles, or is ADMIN. -/
theorem requireRoles_eq_ok {allowed : List Role} {u v : User} :
    requireRoles allowed u = .ok v ↔ u.role ∈ allowedSet allowed ∧ u = v := by
  unfold requireRoles
  split_ifs with h
  · simp [h]
  · simp [h]

/-- A route lets the user of a valid token through whose row has one of the roles. -/
theorem guardRoles_eq_ok {users : Users} {now : Time} {credentials : Option String}
    {allowed : List Role} {u : User} :
    guardRoles crypto settings users now credentials allowed = .ok u ↔
      getCurrentUser crypto settings users now credentials = .ok u ∧
        u.role ∈ allowedSet allowed := by
  unfold guardRoles
  rw [bind_eq_ok]
  constructor
  · rintro ⟨v, hv, hrole⟩
    obtain ⟨hallowed, rfl⟩ := requireRoles_eq_ok.mp hrole
    exact ⟨hv, hallowed⟩
  · rintro ⟨hu, hallowed⟩
    exact ⟨u, hu, requireRoles_eq_ok.mpr ⟨hallowed, rfl⟩⟩

end MlopsPlatform.Api
