import Mathlib.Data.List.Infix

/-!
# Patterns with wildcards

The patterns of SQL's `LIKE`. A pattern is read as tokens, and a text is matched against the tokens
up to a function that says which characters are taken for the same one: `ILIKE` folds the case.

A program that looks for a text by putting it between two `%` wants the texts that contain it.
`CaseFold.ilike_around` says that it finds these if the text has no wildcard and no escape in it,
and `decoy` is a text that it finds wrongly if it has one.
-/

universe u v

namespace Like

/-! ## Tokens -/

/-- A part of a pattern. -/
inductive Token (α : Type u)
  /-- This character. -/
  | char (c : α)
  /-- Any one character. -/
  | one
  /-- Any run of characters, which may be empty. -/
  | run

section

variable {α : Type u} {β : Type v} [DecidableEq β] {fold : α → β}

/-- A text matches tokens, where characters are the same if `fold` does not tell them apart. -/
def accepts (fold : α → β) : List (Token α) → List α → Bool
  | [], s => s.isEmpty
  | .char _ :: _, [] => false
  | .char c :: ts, d :: s => fold c = fold d && accepts fold ts s
  | .one :: _, [] => false
  | .one :: ts, _ :: s => accepts fold ts s
  | .run :: ts, s => s.tails.any fun rest => accepts fold ts rest

/-- A run takes what comes before some suffix. -/
theorem accepts_run {ts : List (Token α)} {s : List α} :
    accepts fold (.run :: ts) s = true ↔ ∃ rest, rest <:+ s ∧ accepts fold ts rest = true := by
  simp only [accepts, List.any_eq_true, List.mem_tails]

/-- A run at the end takes whatever is left. -/
theorem accepts_run_nil (s : List α) : accepts fold [.run] s = true :=
  accepts_run.mpr ⟨[], List.nil_suffix, rfl⟩

/-- Characters before other tokens match a prefix that is the same. -/
theorem accepts_chars {cs : List α} {ts : List (Token α)} {s : List α} :
    accepts fold (cs.map Token.char ++ ts) s = true ↔
      ∃ pre rest, s = pre ++ rest ∧ pre.map fold = cs.map fold ∧ accepts fold ts rest = true := by
  induction cs generalizing s with
  | nil =>
    constructor
    · intro h
      exact ⟨[], s, rfl, rfl, h⟩
    · rintro ⟨pre, rest, rfl, hpre, h⟩
      obtain rfl := List.map_eq_nil_iff.mp hpre
      exact h
  | cons c cs ih =>
    cases s with
    | nil =>
      constructor
      · exact fun h => absurd h Bool.false_ne_true
      · rintro ⟨pre, rest, hs, hpre, -⟩
        obtain ⟨rfl, -⟩ := List.append_eq_nil_iff.mp hs.symm
        exact absurd hpre (by simp)
    | cons d s =>
      have hstep : accepts fold ((c :: cs).map Token.char ++ ts) (d :: s) = true ↔
          fold c = fold d ∧ accepts fold (cs.map Token.char ++ ts) s = true := by
        simp only [List.map_cons, List.cons_append, accepts, Bool.and_eq_true, decide_eq_true_eq]
      rw [hstep, ih]
      constructor
      · rintro ⟨hc, pre, rest, rfl, hpre, h⟩
        exact ⟨d :: pre, rest, rfl, by rw [List.map_cons, List.map_cons, hc, hpre], h⟩
      · rintro ⟨pre, rest, hs, hpre, h⟩
        cases pre with
        | nil => exact absurd hpre (by simp)
        | cons e pre =>
          obtain ⟨rfl, rfl⟩ := List.cons.inj hs
          obtain ⟨hc, hcs⟩ := List.cons.inj hpre
          exact ⟨hc.symm, pre, rest, rfl, hcs, h⟩

/-- A text contains another one, up to `fold`. -/
def Contains (fold : α → β) (q s : List α) : Prop := q.map fold <:+: s.map fold

instance (q s : List α) : Decidable (Contains fold q s) :=
  inferInstanceAs (Decidable (_ <:+: _))

/-- Characters between two runs match the texts that contain them. -/
theorem accepts_between {q s : List α} :
    accepts fold (.run :: (q.map Token.char ++ [.run])) s = true ↔ Contains fold q s := by
  rw [accepts_run]
  constructor
  · rintro ⟨rest, ⟨before, rfl⟩, h⟩
    obtain ⟨pre, after, rfl, hpre, -⟩ := accepts_chars.mp h
    refine ⟨before.map fold, after.map fold, ?_⟩
    rw [List.map_append, List.map_append, hpre, List.append_assoc]
  · rintro ⟨before, after, h⟩
    -- The text splits where its folded characters do.
    obtain ⟨l, after', rfl, hl, rfl⟩ := List.map_eq_append_iff.mp h.symm
    obtain ⟨before', pre, rfl, rfl, hpre⟩ := List.map_eq_append_iff.mp hl
    refine ⟨pre ++ after', ⟨before', (List.append_assoc _ _ _).symm⟩, ?_⟩
    exact accepts_chars.mpr ⟨pre, after', rfl, hpre, accepts_run_nil after'⟩

omit [DecidableEq β] in
/-- A text that is no longer than one that it contains is the same up to `fold`. -/
theorem Contains.eq_of_length {q s : List α} (h : Contains fold q s) (hlen : s.length ≤ q.length) :
    q.map fold = s.map fold ∧ s.length = q.length := by
  have hinfix : q.map fold <:+: s.map fold := h
  have hle := hinfix.length_le
  rw [List.length_map, List.length_map] at hle
  have heq : s.length = q.length := Nat.le_antisymm hlen hle
  exact ⟨List.IsInfix.eq_of_length hinfix (by rw [List.length_map, List.length_map, heq]), heq⟩

end

/-! ## Patterns -/

/-- The tokens of a pattern: `%` is a run, `_` is one character, and a backslash escapes the next
character. A pattern does not end with an escape. -/
def tokens : List Char → List (Token Char)
  | [] => []
  | '\\' :: c :: cs => .char c :: tokens cs
  | '%' :: cs => .run :: tokens cs
  | '_' :: cs => .one :: tokens cs
  | c :: cs => .char c :: tokens cs

/-- The character means something in a pattern. -/
def isSpecial (c : Char) : Bool := c = '%' || c = '_' || c = '\\'

/-- The text has no wildcard and no escape in it. -/
def Plain (cs : List Char) : Prop := ∀ c ∈ cs, isSpecial c = false

instance (cs : List Char) : Decidable (Plain cs) :=
  List.decidableBAll (fun c => isSpecial c = false) cs

example : tokens ['a', '%', '\\', '%', '_', '\\', '\\'] =
    [.char 'a', .run, .char '%', .one, .char '\\'] := rfl

/-- A character that means nothing else is itself. -/
theorem tokens_cons {c : Char} (h : isSpecial c = false) (cs : List Char) :
    tokens (c :: cs) = .char c :: tokens cs := by
  simp only [isSpecial, Bool.or_eq_false_iff, decide_eq_false_iff_not] at h
  obtain ⟨⟨hrun, hone⟩, hescape⟩ := h
  simp [tokens, hescape]

/-- A plain text in a pattern is itself. -/
theorem tokens_append {q : List Char} (h : Plain q) (cs : List Char) :
    tokens (q ++ cs) = q.map Token.char ++ tokens cs := by
  induction q with
  | nil => rfl
  | cons c q ih =>
    obtain ⟨hc, hq⟩ := List.forall_mem_cons.mp h
    rw [List.cons_append, tokens_cons hc, ih hq, List.map_cons, List.cons_append]

/-- A function of characters that folds case, and tells the special ones from all others. -/
structure CaseFold where
  fold : Char → Char
  special : ∀ m c, isSpecial m = true → fold c = fold m → c = m

/-- No other character becomes one that is not a lower-case letter. -/
theorem eq_of_toLower {c m : Char} (hm : m.val.toNat < 97 ∨ 122 < m.val.toNat)
    (h : c.toLower = m) : c = m := by
  unfold Char.toLower at h
  split at h
  · rename_i hupper
    have hval : c.val + ('a'.val - 'A'.val) = m.val := congrArg Char.val h
    have hnat := congrArg UInt32.toNat hval
    rw [UInt32.toNat_add] at hnat
    have hoffset : ('a'.val - 'A'.val).toNat = 32 := rfl
    have hge : 65 ≤ c.val.toNat := hupper.1
    have hle : c.val.toNat ≤ 90 := hupper.2
    omega
  · exact h

/-- The case folding of ASCII. -/
def CaseFold.ascii : CaseFold where
  fold := Char.toLower
  special := by
    intro m c hm h
    simp only [isSpecial, Bool.or_eq_true, decide_eq_true_eq] at hm
    rcases hm with (rfl | rfl) | rfl
    · exact eq_of_toLower (by decide) h
    · exact eq_of_toLower (by decide) h
    · exact eq_of_toLower (by decide) h

/-- A text contains another one, whatever the case. -/
abbrev CaseFold.Contains (f : CaseFold) (q s : List Char) : Prop := Like.Contains f.fold q s

/-- A text matches a pattern, whatever the case. -/
def CaseFold.ilike (f : CaseFold) (pattern s : List Char) : Bool :=
  accepts f.fold (tokens pattern) s

/-- The pattern with a text between two `%`. -/
def around (q : List Char) : List Char := '%' :: (q ++ ['%'])

/-- A plain text between two `%` matches the texts that contain it. -/
theorem CaseFold.ilike_around {f : CaseFold} {q : List Char} (h : Plain q) (s : List Char) :
    f.ilike (around q) s = true ↔ f.Contains q s := by
  have htokens : tokens (around q) = .run :: (q.map Token.char ++ [.run]) :=
    congrArg (List.cons Token.run) (tokens_append h ['%'])
  rw [ilike, htokens]
  exact accepts_between

/-- What a plain text contains is plain. -/
theorem CaseFold.plain_of_contains {f : CaseFold} {q s : List Char} (h : f.Contains q s)
    (hs : Plain s) : Plain q := by
  intro m hm
  by_contra hspecial
  have hsome : f.fold m ∈ s.map f.fold := h.subset (List.mem_map_of_mem hm)
  obtain ⟨c, hc, hfold⟩ := List.mem_map.mp hsome
  -- No other character is folded to a special one.
  obtain rfl := f.special m c (by simpa using hspecial) hfold
  exact hspecial (hs c hc)

/-! ## Texts that are not plain -/

/-- A text that matches a pattern: every wildcard stands for an `x`, and every escape is gone. If
the pattern ends with a backslash, then that escapes a `%` to come. -/
def decoy : List Char → List Char
  | [] => []
  | ['\\'] => ['%']
  | '\\' :: c :: cs => c :: decoy cs
  | '%' :: cs => 'x' :: decoy cs
  | '_' :: cs => 'x' :: decoy cs
  | c :: cs => c :: decoy cs

/-- A character that means nothing else is its own decoy. -/
theorem decoy_cons {c : Char} (h : isSpecial c = false) (cs : List Char) :
    decoy (c :: cs) = c :: decoy cs := by
  simp only [isSpecial, Bool.or_eq_false_iff, decide_eq_false_iff_not] at h
  obtain ⟨⟨hrun, hone⟩, hescape⟩ := h
  simp [decoy, hescape]

/-- What is left when the wildcards and the escapes are taken out. -/
theorem isSpecial_eq_false {c : Char} {cs : List Char} (hlast : c = '\\' → cs = [] → False)
    (hescape : ∀ d ds, c = '\\' → cs = d :: ds → False) (hrun : c = '%' → False)
    (hone : c = '_' → False) : isSpecial c = false := by
  have hbackslash : c ≠ '\\' := by
    rintro rfl
    cases cs with
    | nil => exact hlast rfl rfl
    | cons d ds => exact hescape d ds rfl rfl
  simp only [isSpecial, Bool.or_eq_false_iff, decide_eq_false_iff_not]
  exact ⟨⟨hrun, hone⟩, hbackslash⟩

/-- A text between two `%` matches its decoy. -/
theorem CaseFold.ilike_decoy (f : CaseFold) (q : List Char) :
    f.ilike (around q) (decoy q) = true := by
  have htokens : accepts f.fold (tokens (q ++ ['%'])) (decoy q) = true := by
    induction q using decoy.induct with
    | case1 => rfl
    | case2 => simp [tokens, decoy, accepts]
    | case3 c cs ih => simp [tokens, decoy, accepts, ih]
    | case4 cs ih =>
      -- The run takes the `x`.
      exact accepts_run.mpr ⟨decoy cs, List.suffix_cons 'x' _, ih⟩
    | case5 cs ih => exact ih
    | case6 c cs hlast hescape hrun hone ih =>
      have hplain : isSpecial c = false := isSpecial_eq_false hlast hescape hrun hone
      rw [decoy_cons hplain, List.cons_append, tokens_cons hplain]
      simp [accepts, ih]
  exact accepts_run.mpr ⟨decoy q, List.suffix_refl _, htokens⟩

/-- A text that its decoy contains is plain. -/
theorem CaseFold.plain_of_decoy {f : CaseFold} {q : List Char} (h : f.Contains q (decoy q)) :
    Plain q := by
  -- The decoy is no longer than the text, so it contains it only if it is the same.
  have hle : ∀ q, (decoy q).length ≤ q.length := by
    intro q
    induction q using decoy.induct with
    | case1 => rfl
    | case2 => rfl
    | case3 c cs ih =>
      simp only [decoy, List.length_cons]
      omega
    | case4 cs ih => exact Nat.succ_le_succ ih
    | case5 cs ih => exact Nat.succ_le_succ ih
    | case6 c cs hlast hescape hrun hone ih =>
      rw [decoy_cons (isSpecial_eq_false hlast hescape hrun hone)]
      exact Nat.succ_le_succ ih
  obtain ⟨hfold, hlen⟩ := h.eq_of_length (hle q)
  clear h
  induction q using decoy.induct with
  | case1 => exact fun c hc => absurd hc List.not_mem_nil
  | case2 =>
    have hsame := f.special '\\' '%' rfl (List.cons.inj hfold).1.symm
    exact absurd hsame (by decide)
  | case3 c cs ih =>
    have hshort := hle cs
    simp only [decoy, List.length_cons] at hlen
    omega
  | case4 cs ih =>
    have hsame := f.special '%' 'x' rfl (List.cons.inj hfold).1.symm
    exact absurd hsame (by decide)
  | case5 cs ih =>
    have hsame := f.special '_' 'x' rfl (List.cons.inj hfold).1.symm
    exact absurd hsame (by decide)
  | case6 c cs hlast hescape hrun hone ih =>
    have hplain : isSpecial c = false := isSpecial_eq_false hlast hescape hrun hone
    rw [decoy_cons hplain] at hfold hlen
    exact List.forall_mem_cons.mpr ⟨hplain, ih (List.cons.inj hfold).2 (Nat.succ.inj hlen)⟩

end Like
