import MlopsPlatform.Widths
import Mathlib.Data.Finset.Card
import Mathlib.Data.List.DropRight
import Mathlib.Data.List.Nodup
import Mathlib.Data.Nat.Find
import Mathlib.Order.Bounds.Basic

/-!
# The keys of models

`_unique_key` looks for a free key among the slug of the name and the slug with `-2`, `-3`, … until
it finds one (`keyCandidate`). The candidates differ from each other, so that a loop over more of
them than there are keys ends, and it ends at the first one that is free (`uniqueKey_spec`). Neither
the slug nor the suffix is bounded by the width of the column: names of up to 255 characters are
admitted, and a key holds 128. Read from left to right, a slug keeps the characters `a-z0-9` of the
name and puts a hyphen before each one that comes after a gap (`stripWhere_collapse`), so that it
has one between each two runs of them (`length_slugify`). A model can be registered exactly when its
slug is free, or is with some number, and fits (`createModel_accepted_iff`).
-/

namespace MlopsPlatform

/-- The keys that `_unique_key` tries: the slug, and then the slug with `-2`, `-3`, …. -/
def keyCandidate (base : String) : ℕ → String
  | 0 => base
  | n + 1 => s!"{base}-{n + 2}"

/-- The keys of the registered models. -/
def Db.modelKeys (db : Db) : List String := db.models.rows.map Model.key

/-- A candidate with a suffix is the slug, a hyphen, and a number. -/
theorem keyCandidate_succ (base : String) (n : ℕ) :
    keyCandidate base (n + 1) = base ++ "-" ++ Nat.repr (n + 2) := rfl

/-- A number is the value of its decimal digits. -/
theorem eq_of_repr_eq {m n : ℕ} (h : Nat.repr m = Nat.repr n) : m = n := by
  have hlists : m.repr.toList = n.repr.toList := congrArg String.toList h
  rw [Nat.toList_repr, Nat.toList_repr] at hlists
  have hvalues := congrArg (fun digits => Nat.ofDigitChars 10 digits 0) hlists
  rwa [Nat.ofDigitChars_ten_toDigits, Nat.ofDigitChars_ten_toDigits] at hvalues

/-- The length of a candidate. -/
theorem length_keyCandidate_succ (base : String) (n : ℕ) :
    (keyCandidate base (n + 1)).length = base.length + (1 + (Nat.repr (n + 2)).length) := by
  calc (keyCandidate base (n + 1)).length
      = (base ++ "-").length + (Nat.repr (n + 2)).length := String.length_append _ _
    _ = base.length + 1 + (Nat.repr (n + 2)).length := by rw [String.length_append]; rfl
    _ = base.length + (1 + (Nat.repr (n + 2)).length) := Nat.add_assoc _ _ _

/-- The candidates differ from each other. -/
theorem keyCandidate_injective (base : String) : Function.Injective (keyCandidate base) := by
  -- The slug itself is shorter than the others.
  have hlength : ∀ n, keyCandidate base (n + 1) ≠ base := by
    intro n h
    have hlen := congrArg String.length h
    rw [length_keyCandidate_succ] at hlen
    omega
  intro m n h
  cases m with
  | zero =>
    cases n with
    | zero => rfl
    | succ n => exact absurd h.symm (hlength n)
  | succ m =>
    cases n with
    | zero => exact absurd h (hlength m)
    | succ n =>
      rw [keyCandidate_succ, keyCandidate_succ, String.append_right_inj] at h
      have hmn := eq_of_repr_eq h
      omega

/-! ## The loop -/

/-- The loop of `_unique_key` from a candidate on, when the free one is `n` candidates further: with
`n` lookups or fewer it is not over, and with one more it returns that candidate. -/
theorem uniqueKeyFrom_eq {taken : List String} {base : String} {k n : ℕ}
    (hfree : keyCandidate base (k + n) ∉ taken)
    (hbefore : ∀ m, m < n → keyCandidate base (k + m) ∈ taken) (lookups : ℕ) :
    uniqueKeyFrom taken base lookups (keyCandidate base k) (k + 2) =
      if lookups ≤ n then none else some (keyCandidate base (k + n)) := by
  induction lookups generalizing k n with
  | zero => rfl
  | succ lookups ih =>
    cases n with
    | zero =>
      have hkey : keyCandidate base k ∉ taken := hfree
      rw [uniqueKeyFrom, if_neg hkey, if_neg (by omega)]
      rfl
    | succ n =>
      have hkey : keyCandidate base k ∈ taken := hbefore 0 (by omega)
      have hshift : ∀ m, k + 1 + m = k + (m + 1) := fun m => by omega
      -- The loop goes on with the next candidate.
      have hnext : uniqueKeyFrom taken base lookups (keyCandidate base (k + 1)) (k + 1 + 2) =
          if lookups ≤ n then none else some (keyCandidate base (k + 1 + n)) := by
        refine ih ?_ fun m hm => ?_
        · rw [hshift]
          exact hfree
        · rw [hshift]
          exact hbefore (m + 1) (by omega)
      rw [uniqueKeyFrom, if_pos hkey]
      show uniqueKeyFrom taken base lookups (keyCandidate base (k + 1)) (k + 1 + 2) = _
      rw [hnext, hshift]
      simp only [Nat.add_le_add_iff_right]

/-- The loop is over with the lookup of the first candidate that is free. -/
theorem uniqueKeyFrom_of_isLeast {taken : List String} {base : String} {n : ℕ}
    (h : IsLeast {n | keyCandidate base n ∉ taken} n) (lookups : ℕ) :
    uniqueKeyFrom taken base lookups base 2 =
      if lookups < n + 1 then none else some (keyCandidate base n) := by
  obtain ⟨hfree, hleast⟩ := h
  have hbefore : ∀ m, m < n → keyCandidate base (0 + m) ∈ taken := by
    intro m hm
    rw [Nat.zero_add]
    by_contra hnot
    exact absurd (hleast hnot) (by omega)
  have hloop := uniqueKeyFrom_eq (k := 0) (by rwa [Nat.zero_add]) hbefore lookups
  simp only [Nat.zero_add] at hloop
  simp only [Nat.lt_succ_iff]
  exact hloop

/-- Not all of the candidates up to the number of keys are taken. -/
theorem exists_free_candidate (taken : List String) (base : String) :
    ∃ n, n < taken.length + 1 ∧ keyCandidate base n ∉ taken := by
  by_contra hnone
  have hsubset : (List.range (taken.length + 1)).map (keyCandidate base) ⊆ taken := by
    intro key hkey
    obtain ⟨n, hn, rfl⟩ := List.mem_map.mp hkey
    by_contra hfree
    exact hnone ⟨n, List.mem_range.mp hn, hfree⟩
  -- There are more candidates than keys.
  have hnodup : ((List.range (taken.length + 1)).map (keyCandidate base)).Nodup :=
    List.nodup_range.map (keyCandidate_injective base)
  have hle := hnodup.length_le_of_subset hsubset
  rw [List.length_map, List.length_range] at hle
  omega

/-- One of the candidates up to the number of different keys is the first that is free. -/
theorem exists_first_free (taken : List String) (base : String) :
    ∃ n, n ≤ taken.toFinset.card ∧ IsLeast {n | keyCandidate base n ∉ taken} n := by
  have hfree : ∃ n, n < taken.toFinset.card + 1 ∧ keyCandidate base n ∉ taken := by
    obtain ⟨n, hn, hnot⟩ := exists_free_candidate taken.dedup base
    rw [List.mem_dedup] at hnot
    exact ⟨n, by rwa [List.card_toFinset], hnot⟩
  have hexists : ∃ n, keyCandidate base n ∉ taken := hfree.imp fun n hn => hn.2
  obtain ⟨n, hn, hnot⟩ := hfree
  refine ⟨Nat.find hexists, ?_, Nat.find_spec hexists, fun m hm => Nat.find_min' hexists hm⟩
  have hle := Nat.find_min' hexists hnot
  omega

/-- `_unique_key` finds a key: the first candidate that is free. -/
theorem uniqueKey_spec (lower : String → String) (db : Db) (name : String) :
    ∃ n, IsLeast {n | keyCandidate (slugify lower name) n ∉ db.modelKeys} n ∧
      uniqueKey lower db name = some (keyCandidate (slugify lower name) n) := by
  obtain ⟨n, hn, hleast⟩ := exists_first_free db.modelKeys (slugify lower name)
  have hkeys : db.modelKeys.toFinset.card ≤ db.models.rows.length := by
    have hcard := List.toFinset_card_le db.modelKeys
    rwa [Db.modelKeys, List.length_map] at hcard
  refine ⟨n, hleast, ?_⟩
  show uniqueKeyFrom db.modelKeys _ (db.models.rows.length + 1) _ 2 = _
  rw [uniqueKeyFrom_of_isLeast hleast, if_neg (by omega)]

/-- `create_model` stages an insert under the first free candidate. -/
theorem createModel_spec (lower : String → String) (db : Db) (actorId : Uuid) (data : ModelCreate) :
    ∃ n model, IsLeast {n | keyCandidate (slugify lower data.name) n ∉ db.modelKeys} n ∧
      createModel lower db actorId data = some (.insertModel model) ∧
      ∀ id, model.1 id =
        { id
          key := keyCandidate (slugify lower data.name) n
          name := data.name
          owner := data.owner
          framework := data.framework.value
          tags := data.tags
          createdBy := some actorId } := by
  obtain ⟨n, hleast, hkey⟩ := uniqueKey_spec lower db data.name
  unfold createModel
  rw [hkey]
  exact ⟨n, _, hleast, rfl, fun _ => rfl⟩

/-! ## Calls one after the other -/

/-- Calls of `create_model` one after the other, each with its reads and its write at once. No
constraint checks what they write. -/
def createModels (lower : String → String) (db : Db) : List (Uuid × ModelCreate) → Option Db
  | [] => some db
  | (actorId, data) :: calls =>
    match createModel lower db actorId data with
    | some u => createModels lower (db.write u) calls
    | none => none

/-- A call of `create_model` inserts a model under a key that no other model has. -/
theorem createModel_fresh (lower : String → String) (db : Db) (actorId : Uuid)
    (data : ModelCreate) :
    ∃ model, createModel lower db actorId data = some (.insertModel model) ∧
      (model.1 db.models.next).key ∉ db.modelKeys := by
  obtain ⟨n, model, hleast, hcreate, hrow⟩ := createModel_spec lower db actorId data
  refine ⟨model, hcreate, ?_⟩
  rw [hrow]
  exact hleast.1

/-- Each call of a run of `create_model` inserts one model, under a key of its own. -/
theorem createModels_spec (lower : String → String) (db : Db)
    (calls : List (Uuid × ModelCreate)) :
    ∃ db', createModels lower db calls = some db' ∧
      db'.modelKeys.length = db.modelKeys.length + calls.length ∧
      (db.modelKeys.Nodup → db'.modelKeys.Nodup) := by
  induction calls generalizing db with
  | nil => exact ⟨db, rfl, rfl, fun h => h⟩
  | cons call calls ih =>
    obtain ⟨actorId, data⟩ := call
    obtain ⟨model, hcreate, hfresh⟩ := createModel_fresh lower db actorId data
    have hkeys : (db.write (.insertModel model)).modelKeys =
        db.modelKeys ++ [(model.1 db.models.next).key] := by
      show (db.models.rows ++ [model.1 db.models.next]).map Model.key = _
      rw [List.map_append]
      rfl
    obtain ⟨db', hrun, hlength, hnodup⟩ := ih (db.write (.insertModel model))
    refine ⟨db', by rw [createModels, hcreate]; exact hrun, ?_, fun h => hnodup ?_⟩
    · rw [hlength, hkeys, List.length_append, List.length_singleton, List.length_cons]
      omega
    · rw [hkeys, List.nodup_append]
      refine ⟨h, List.nodup_singleton _, ?_⟩
      rintro key hkey _ hnew rfl
      rw [List.mem_singleton.mp hnew] at hkey
      exact hfresh hkey

section

variable {taken : List String} {base : String} {n : ℕ}

/-- The slug itself is the key if it is free. -/
theorem keyCandidate_of_free (h : IsLeast {n | keyCandidate base n ∉ taken} n)
    (hbase : base ∉ taken) : keyCandidate base n = base := by
  have hzero : n = 0 := Nat.le_zero.mp (h.2 hbase)
  rw [hzero]
  rfl

/-- Otherwise the slug gets the least number from 2 on that makes the key free. -/
theorem keyCandidate_of_taken (h : IsLeast {n | keyCandidate base n ∉ taken} n)
    (hbase : base ∈ taken) :
    ∃ m, IsLeast {m | 2 ≤ m ∧ s!"{base}-{m}" ∉ taken} m ∧ keyCandidate base n = s!"{base}-{m}" := by
  obtain ⟨hfree, hleast⟩ := h
  cases n with
  | zero => exact absurd hbase hfree
  | succ n =>
    refine ⟨n + 2, ⟨⟨by omega, hfree⟩, ?_⟩, rfl⟩
    rintro m ⟨hm, hnot⟩
    obtain ⟨k, rfl⟩ := Nat.exists_eq_add_of_le' hm
    have hle : n + 1 ≤ k + 1 := hleast (show keyCandidate base (k + 1) ∉ taken from hnot)
    omega

end

/-- `_unique_key` ends with the first free slug. For every name and all existing keys the loop makes
so many lookups and is over, at most one more than there are different keys. What it returns is
free: the slug of the name if that is free, and otherwise the slug with the least number from 2 on
that is. So calls of `create_model` one after the other keep the keys distinct, whatever the names.
-/
theorem uniqueKey_first_free (lower : String → String) :
    (∀ (name : String) (taken : List String), ∃ n key, n + 1 ≤ taken.toFinset.card + 1 ∧
      (∀ lookups, uniqueKeyFrom taken (slugify lower name) lookups (slugify lower name) 2 =
        if lookups < n + 1 then none else some key) ∧
      key ∉ taken ∧
      (slugify lower name ∉ taken → key = slugify lower name) ∧
      (slugify lower name ∈ taken → ∃ m,
        IsLeast {m | 2 ≤ m ∧ s!"{slugify lower name}-{m}" ∉ taken} m ∧
          key = s!"{slugify lower name}-{m}") ∧
      ∀ db : Db, db.modelKeys = taken → uniqueKey lower db name = some key) ∧
    ∀ (db : Db) (calls : List (Uuid × ModelCreate)), ∃ db',
      createModels lower db calls = some db' ∧
        db'.modelKeys.length = db.modelKeys.length + calls.length ∧
        (db.modelKeys.Nodup → db'.modelKeys.Nodup) := by
  refine ⟨fun name taken => ?_, createModels_spec lower⟩
  obtain ⟨n, hn, hleast⟩ := exists_first_free taken (slugify lower name)
  refine ⟨n, keyCandidate (slugify lower name) n, by omega, uniqueKeyFrom_of_isLeast hleast,
    hleast.1, keyCandidate_of_free hleast, keyCandidate_of_taken hleast, ?_⟩
  rintro db rfl
  obtain ⟨m, hleast', hkey⟩ := uniqueKey_spec lower db name
  rw [hkey, hleast'.unique hleast]

/-! ## The width of a key -/

/-- The length of the suffix of a candidate. -/
def keySuffixLength : ℕ → ℕ
  | 0 => 0
  | n + 1 => 1 + (Nat.repr (n + 2)).length

/-- A candidate is the slug and a suffix. -/
theorem length_keyCandidate (base : String) (n : ℕ) :
    (keyCandidate base n).length = base.length + keySuffixLength n := by
  cases n with
  | zero => rfl
  | succ n => exact length_keyCandidate_succ base n

/-- A later candidate has no shorter suffix. -/
theorem keySuffixLength_le {m n : ℕ} (h : m ≤ n) : keySuffixLength m ≤ keySuffixLength n := by
  cases m with
  | zero => exact Nat.zero_le _
  | succ m =>
    cases n with
    | zero => exact absurd h (Nat.not_succ_le_zero m)
    | succ n =>
      have hpos : 0 < (Nat.repr (n + 2)).length := Nat.length_repr_pos
      have hlt : n + 2 < 10 ^ (Nat.repr (n + 2)).length :=
        (Nat.length_repr_le_iff hpos).mp (Nat.le_refl _)
      have hle : (Nat.repr (m + 2)).length ≤ (Nat.repr (n + 2)).length :=
        (Nat.length_repr_le_iff hpos).mpr (by omega)
      show 1 + (Nat.repr (m + 2)).length ≤ 1 + (Nat.repr (n + 2)).length
      omega

/-- The number of runs of `a-z0-9` that begin in a text. `inWord` says that the character before it
was one of these. -/
def wordCount : Bool → List Char → ℕ
  | _, [] => 0
  | inWord, c :: cs =>
    if isSlugChar c then (if inWord then 0 else 1) + wordCount true cs else wordCount false cs

/-- How long a slug is: it has the characters `a-z0-9` of the name, stripped and in lower case, and
a hyphen between each two runs of them. Without any it is `model`. -/
def slugLength (lower : String → String) (name : String) : ℕ :=
  let value := (lower (String.ofList (stripWhere isPySpace name.toList))).toList
  if value.countP isSlugChar = 0 then 5
  else value.countP isSlugChar + (wordCount false value - 1)

/-- A run begins in a text exactly if a character `a-z0-9` is in it. -/
theorem wordCount_eq_zero (cs : List Char) : wordCount false cs = 0 ↔ cs.countP isSlugChar = 0 := by
  induction cs with
  | nil => exact Iff.rfl
  | cons c cs ih =>
    rw [wordCount, List.countP_cons]
    cases hc : isSlugChar c with
    | true =>
      simp only [if_true, Bool.false_eq_true, if_false]
      omega
    | false =>
      simp only [Bool.false_eq_true, if_false, Nat.add_zero]
      exact ih

/-- A hyphen is not one of the characters `a-z0-9`. -/
theorem ne_hyphen {c : Char} (hc : isSlugChar c = true) : c ≠ '-' := by
  rintro rfl
  exact absurd hc (by decide)

/-- Dropping characters at the end keeps the first one if something is left after it, or if it is
not to be dropped. -/
theorem rdropWhile_cons (p : Char → Bool) (c : Char) (cs : List Char) :
    (c :: cs).rdropWhile p =
      if cs.rdropWhile p = [] ∧ p c = true then [] else c :: cs.rdropWhile p := by
  unfold List.rdropWhile
  rw [List.reverse_cons, List.dropWhile_append]
  cases hrest : cs.reverse.dropWhile p with
  | nil =>
    cases hc : p c with
    | true => simp [hc]
    | false => simp [hc]
  | cons d ds => simp

/-! ## What is left of a name -/

/-- The characters `a-z0-9` of a text, with a hyphen before each one that comes after a gap. `inGap`
says that the character before the text was another one. -/
def hyphenated : Bool → List Char → List Char
  | _, [] => []
  | inGap, c :: cs =>
    if isSlugChar c then (if inGap then ['-'] else []) ++ c :: hyphenated false cs
    else hyphenated true cs

/-- A kept character without a gap before it. -/
theorem hyphenated_false_cons {c : Char} (cs : List Char) (hc : isSlugChar c = true) :
    hyphenated false (c :: cs) = c :: hyphenated false cs := by
  rw [hyphenated, if_pos hc]
  rfl

/-- A kept character after a gap. -/
theorem hyphenated_true_cons {c : Char} (cs : List Char) (hc : isSlugChar c = true) :
    hyphenated true (c :: cs) = '-' :: c :: hyphenated false cs := by
  rw [hyphenated, if_pos hc]
  rfl

/-- Another character is a gap. -/
theorem hyphenated_cons_gap {inGap : Bool} {c : Char} (cs : List Char) (hc : isSlugChar c = false) :
    hyphenated inGap (c :: cs) = hyphenated true cs := by
  rw [hyphenated, if_neg (by rw [hc]; decide)]

/-- Collapsed separators without hyphens at the end: each hyphen is one that comes before a kept
character. -/
theorem rdropWhile_collapse (cs : List Char) :
    ((collapse false cs).rdropWhile fun c => c = '-') = hyphenated false cs ∧
      (('-' :: collapse true cs).rdropWhile fun c => c = '-') = hyphenated true cs := by
  induction cs with
  | nil => exact ⟨rfl, rfl⟩
  | cons c cs ih =>
    obtain ⟨hfalse, htrue⟩ := ih
    cases hc : isSlugChar c with
    | true =>
      have hkeep : ¬(((collapse false cs).rdropWhile fun c => c = '-') = [] ∧
          decide (c = '-') = true) := fun h => ne_hyphen hc (of_decide_eq_true h.2)
      have hword : ((c :: collapse false cs).rdropWhile fun c => c = '-') =
          c :: hyphenated false cs := by
        rw [rdropWhile_cons, if_neg hkeep, hfalse]
      simp only [collapse, hc, if_true]
      constructor
      · rw [hword, hyphenated_false_cons cs hc]
      · rw [rdropWhile_cons, hword, if_neg (by simp), hyphenated_true_cons cs hc]
    | false =>
      simp only [collapse, hc, Bool.false_eq_true, if_false, if_true]
      rw [hyphenated_cons_gap cs hc, hyphenated_cons_gap cs hc]
      exact ⟨htrue, htrue⟩

/-- Collapsing the separators and stripping hyphens keeps the characters `a-z0-9` from the first one
on, with a hyphen for each gap. -/
theorem stripWhere_collapse (inRun : Bool) (cs : List Char) :
    stripWhere (fun c => c = '-') (collapse inRun cs) =
      hyphenated false (cs.dropWhile fun c => !isSlugChar c) := by
  show (((collapse inRun cs).dropWhile fun c => c = '-').rdropWhile fun c => c = '-') = _
  induction cs generalizing inRun with
  | nil => rfl
  | cons c cs ih =>
    cases hc : isSlugChar c with
    | true =>
      have hne : decide (c = '-') = false := decide_eq_false (ne_hyphen hc)
      have hcollapse : collapse inRun (c :: cs) = collapse false (c :: cs) := by
        simp only [collapse, hc, if_true]
      rw [hcollapse]
      have hdrop : (collapse false (c :: cs)).dropWhile (fun c => c = '-') =
          collapse false (c :: cs) := by
        simp only [collapse, hc, if_true, List.dropWhile_cons, hne, Bool.false_eq_true, if_false]
      have hstart : (c :: cs).dropWhile (fun c => !isSlugChar c) = c :: cs := by
        rw [List.dropWhile_cons, hc]
        rfl
      rw [hdrop, hstart]
      exact (rdropWhile_collapse (c :: cs)).1
    | false =>
      have hstart : (c :: cs).dropWhile (fun c => !isSlugChar c) =
          cs.dropWhile fun c => !isSlugChar c := by
        rw [List.dropWhile_cons, hc]
        rfl
      rw [hstart]
      cases inRun with
      | true =>
        have hcollapse : collapse true (c :: cs) = collapse true cs := by
          rw [collapse, hc]
          rfl
        rw [hcollapse]
        exact ih true
      | false =>
        have hcollapse : collapse false (c :: cs) = '-' :: collapse true cs := by
          rw [collapse, hc]
          rfl
        rw [hcollapse]
        exact ih true

/-- A hyphen for each run that comes after a gap. -/
theorem length_hyphenated (inGap : Bool) (cs : List Char) :
    (hyphenated inGap cs).length = cs.countP isSlugChar + wordCount (!inGap) cs := by
  induction cs generalizing inGap with
  | nil => rfl
  | cons c cs ih =>
    rw [List.countP_cons, wordCount]
    cases hc : isSlugChar c with
    | true =>
      cases inGap with
      | true =>
        rw [hyphenated_true_cons cs hc, List.length_cons, List.length_cons, ih]
        simp only [Bool.not_false, Bool.not_true, Bool.false_eq_true, if_true, if_false]
        omega
      | false =>
        rw [hyphenated_false_cons cs hc, List.length_cons, ih]
        simp only [Bool.not_false, if_true]
        omega
    | false =>
      rw [hyphenated_cons_gap cs hc, ih]
      simp

/-- A leading gap has no run in it, and the run after it does not come after another one. -/
theorem wordCount_dropWhile (cs : List Char) :
    (cs.dropWhile fun c => !isSlugChar c).countP isSlugChar = cs.countP isSlugChar ∧
      wordCount true (cs.dropWhile fun c => !isSlugChar c) = wordCount false cs - 1 := by
  induction cs with
  | nil => exact ⟨rfl, rfl⟩
  | cons c cs ih =>
    rw [List.dropWhile_cons, wordCount, List.countP_cons]
    cases hc : isSlugChar c with
    | true => simp [wordCount, hc]
    | false => simpa using ih

/-- Collapsing the separators and dropping hyphens at both ends leaves one between each two runs. -/
theorem length_stripWhere_collapse (inRun : Bool) (cs : List Char) :
    (stripWhere (fun c => c = '-') (collapse inRun cs)).length =
      cs.countP isSlugChar + (wordCount false cs - 1) := by
  obtain ⟨hcount, hwords⟩ := wordCount_dropWhile cs
  rw [stripWhere_collapse, length_hyphenated, hcount, ← hwords]
  rfl

/-- A slug is as long as the name says. -/
theorem length_slugify (lower : String → String) (name : String) :
    (slugify lower name).length = slugLength lower name := by
  unfold slugify slugLength
  dsimp only
  generalize (lower (String.ofList (stripWhere isPySpace name.toList))).toList = value
  have hlength := length_stripWhere_collapse false value
  have hzero := wordCount_eq_zero value
  split_ifs with hempty hnone hnone
  · rfl
  · rw [hempty, List.length_nil] at hlength
    omega
  · have hpos := List.length_pos_of_ne_nil hempty
    omega
  · rw [String.length_ofList, hlength]

/-- There is room for a name: its slug, or the slug with a number, is free and has at most 128
characters. -/
def Db.HasRoom (lower : String → String) (db : Db) (name : String) : Prop :=
  ∃ n, keyCandidate (slugify lower name) n ∉ db.modelKeys ∧
    slugLength lower name + keySuffixLength n ≤ 128

/-- The first free candidate fits exactly if some free one does. -/
theorem length_le_iff_hasRoom {lower : String → String} {db : Db} {name : String} {n : ℕ}
    (h : IsLeast {n | keyCandidate (slugify lower name) n ∉ db.modelKeys} n) :
    (keyCandidate (slugify lower name) n).length ≤ 128 ↔ db.HasRoom lower name := by
  rw [length_keyCandidate, length_slugify]
  constructor
  · exact fun hle => ⟨n, h.1, hle⟩
  · rintro ⟨m, hfree, hle⟩
    calc slugLength lower name + keySuffixLength n
        ≤ slugLength lower name + keySuffixLength m :=
          Nat.add_le_add_left (keySuffixLength_le (h.2 hfree)) _
      _ ≤ 128 := hle

/-- The constraints accept a new model exactly when its key is free. -/
theorem constraints_insertModel {db : Db} (hdb : db.Constraints) (model : Table.Draft Model.id) :
    (db.write (.insertModel model)).Constraints ↔ (model.1 db.models.next).key ∉ db.modelKeys := by
  obtain ⟨hkey, hversion, hidempotency, hactive⟩ := hdb
  have hrows : (db.write (.insertModel model)).UniqueModelKey ↔
      (model.1 db.models.next).key ∉ db.modelKeys := by
    unfold Db.UniqueModelKey
    show (db.models.rows ++ [model.1 db.models.next]).Pairwise _ ↔ _
    rw [List.pairwise_append]
    constructor
    · rintro ⟨-, -, hnew⟩ hmem
      obtain ⟨m, hm, heq⟩ := List.mem_map.mp hmem
      exact hnew m hm _ (List.mem_singleton_self _) heq
    · intro hfree
      refine ⟨hkey, List.pairwise_singleton _ _, fun m hm m' hm' heq => ?_⟩
      rw [List.mem_singleton.mp hm'] at heq
      exact hfree (List.mem_map.mpr ⟨m, hm, heq⟩)
  constructor
  · rintro ⟨hunique, -, -, -⟩
    exact hrows.mp hunique
  · intro hfree
    exact ⟨hrows.mpr hfree, hversion, hidempotency, hactive⟩

/-- Which names can be registered. For every admissible model and all existing keys, `create_model`
stages an insert. The key fits its column, and a database that checks widths accepts the insert,
exactly when there is room for the name. -/
theorem createModel_accepted_iff (lower : String → String) {db : Db} (hdb : db.Constraints)
    (actorId : Uuid) {data : ModelCreate} (hdata : data.Admissible) :
    ∃ model, createModel lower db actorId data = some (.insertModel model) ∧
      ((model.1 db.models.next).key.length ≤ 128 ↔ db.HasRoom lower data.name) ∧
      ((∃ db', db.commitStrict (.insertModel model) = .ok db') ↔ db.HasRoom lower data.name) := by
  obtain ⟨n, model, hleast, hcreate, hrow⟩ := createModel_spec lower db actorId data
  have hlength : (model.1 db.models.next).key.length ≤ 128 ↔ db.HasRoom lower data.name := by
    rw [hrow]
    exact length_le_iff_hasRoom hleast
  refine ⟨model, hcreate, hlength, ?_⟩
  -- The key is free and the other columns fit, so that only the width of the key is left.
  have hfree : (db.write (.insertModel model)).Constraints := by
    rw [constraints_insertModel hdb, hrow]
    exact hleast.1
  have hfits : UnitOfWork.rowsFit db (.insertModel model) = true ↔
      (model.1 db.models.next).key.length ≤ 128 := by
    simp only [UnitOfWork.rowsFit, Model.fits, Bool.and_eq_true]
    rw [hrow]
    simp only [fitsColumn, decide_eq_true_eq, hdata.name.2, hdata.owner.2, and_true]
    have hframework : data.framework.value.length ≤ 64 :=
      of_decide_eq_true data.framework.fitsColumn_value
    simp only [hframework, and_true]
  rw [← hlength, ← hfits]
  constructor
  · rintro ⟨db', hdb'⟩
    exact (Db.commitStrict_eq_ok.mp hdb').1
  · intro hrows
    exact ⟨_, Db.commitStrict_eq_ok.mpr ⟨hrows, rfl, hfree, rfl⟩⟩

/-- Dropping characters that do not occur changes nothing. -/
theorem stripWhere_of_forall {p : Char → Bool} {cs : List Char} (h : ∀ c ∈ cs, p c = false) :
    stripWhere p cs = cs := by
  have hdrop : ∀ ds : List Char, (∀ c ∈ ds, p c = false) → ds.dropWhile p = ds := by
    intro ds hds
    cases ds with
    | nil => rfl
    | cons c ds => rw [List.dropWhile_cons, hds c List.mem_cons_self]; rfl
  unfold stripWhere
  rw [hdrop cs h, hdrop cs.reverse fun c hc => h c (List.mem_reverse.mp hc), List.reverse_reverse]

/-- A text without separators has nothing to collapse. -/
theorem collapse_of_forall {cs : List Char} (inRun : Bool) (h : ∀ c ∈ cs, isSlugChar c = true) :
    collapse inRun cs = cs := by
  induction cs generalizing inRun with
  | nil => rfl
  | cons c cs ih =>
    rw [collapse, if_pos (h c List.mem_cons_self),
      ih false fun d hd => h d (List.mem_cons_of_mem _ hd)]

/-- A name of `n + 1` letters `a`. -/
def letters (n : ℕ) : String := String.ofList (List.replicate (n + 1) 'a')

/-- A name of letters is its own slug. -/
theorem slugify_letters (n : ℕ) : slugify id (letters n) = letters n := by
  have hstrip : ∀ p : Char → Bool, p 'a' = false →
      stripWhere p (List.replicate (n + 1) 'a') = List.replicate (n + 1) 'a' := by
    intro p hp
    refine stripWhere_of_forall fun c hc => ?_
    rw [List.eq_of_mem_replicate hc]
    exact hp
  have hcollapse : collapse false (List.replicate (n + 1) 'a') = List.replicate (n + 1) 'a' := by
    refine collapse_of_forall false fun c hc => ?_
    rw [List.eq_of_mem_replicate hc]
    decide
  unfold slugify letters
  simp only [id, String.toList_ofList]
  rw [hstrip isPySpace (by decide), hcollapse, hstrip _ (by decide), if_neg (by simp)]

/-- Not every admissible name can be registered: the key of a name of 129 letters is too long. -/
theorem not_createModel_fits :
    ¬∀ (lower : String → String) (db : Db) (actorId : Uuid) (data : ModelCreate),
      db.Constraints → data.Admissible →
        ∃ model, createModel lower db actorId data = some (.insertModel model) ∧
          (model.1 db.models.next).key.length ≤ 128 := by
  intro h
  have hlength : (letters 128).length = 129 := by
    rw [letters, String.length_ofList, List.length_replicate]
  have hadmissible : ModelCreate.Admissible ⟨letters 128, "ops", .pytorch, []⟩ :=
    ⟨by rw [hlength]; decide, by decide⟩
  obtain ⟨model, hcreate, hle⟩ := h id .empty 9 _ (by decide) hadmissible
  obtain ⟨n, model', hleast, hcreate', hrow⟩ :=
    createModel_spec id .empty 9 ⟨letters 128, "ops", .pytorch, []⟩
  obtain rfl := UnitOfWork.insertModel.inj (Option.some.inj (hcreate.symm.trans hcreate'))
  -- The first candidate is free.
  obtain rfl : n = 0 := Nat.le_zero.mp (hleast.2 List.not_mem_nil)
  rw [hrow] at hle
  dsimp only [keyCandidate] at hle
  rw [slugify_letters, hlength] at hle
  exact absurd hle (by decide)

/-- An ordinary name, for which there is room in an empty registry. -/
theorem createModel_accepted_iff_pump :
    ∃ model, createModel id .empty 9 ⟨"pump failure", "ops", .pytorch, []⟩ =
        some (.insertModel model) ∧ (model.1 1).key.length ≤ 128 ∧
      ∃ db', Db.empty.commitStrict (.insertModel model) = .ok db' := by
  have hdb : Db.empty.Constraints := by decide
  have hdata : ModelCreate.Admissible ⟨"pump failure", "ops", .pytorch, []⟩ := by
    exact ⟨by decide, by decide⟩
  have hroom : Db.empty.HasRoom id "pump failure" := ⟨0, List.not_mem_nil, by decide⟩
  obtain ⟨model, hcreate, hlength, haccepted⟩ := createModel_accepted_iff id hdb 9 hdata
  exact ⟨model, hcreate, hlength.mpr hroom, haccepted.mpr hroom⟩

end MlopsPlatform
