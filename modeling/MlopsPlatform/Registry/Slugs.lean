import MlopsPlatform.Registry.Keys

/-!
# Canonical slugs

`slugify` strips a name, lower-cases it, puts one hyphen for each run of other characters than
`a-z0-9`, and strips hyphens. Read from left to right this keeps the characters `a-z0-9` and puts a
hyphen before each one that comes after a gap (`stripWhere_collapse`), so that a slug is words with
a hyphen between each two, and a text of that form is its own slug. Of `str.lower` the results need
only that it leaves such texts alone.
-/

namespace MlopsPlatform

/-- Words of characters `a-z0-9`, at least one. -/
def AreWords (words : List (List Char)) : Prop :=
  words ≠ [] ∧ ∀ word ∈ words, word ≠ [] ∧ ∀ c ∈ word, isSlugChar c = true

/-- The string matches `[a-z0-9]+(-[a-z0-9]+)*`: words joined by hyphens. -/
def IsSlug (s : String) : Prop :=
  ∃ words, AreWords words ∧ s.toList = ['-'].intercalate words

/-- `str.lower` fixes strings of lower-case ASCII letters, digits and hyphens. -/
def FixesSlugs (lower : String → String) : Prop :=
  ∀ s : String, (∀ c ∈ s.toList, isSlugChar c = true ∨ c = '-') → lower s = s

/-- The text is `value` in lower case, with or without what `strip` removes: `slugify` lower-cases
what is left, and around that the text has none of the characters `a-z0-9`. -/
def LowerCased (lower : String → String) (value : String) (text : List Char) : Prop :=
  ∃ left right : List Char, (∀ c ∈ left ++ right, isSlugChar c = false) ∧
    text = left ++ (lower (String.ofList (stripWhere isPySpace value.toList))).toList ++ right

/-- How a slug comes from a text: it keeps the characters `a-z0-9` in order, and a hyphen stands
between two of them exactly if other characters stood there. -/
structure Hyphenates (text slug : List Char) : Prop where
  /-- Without its hyphens the slug is the characters `a-z0-9` of the text. -/
  kept : (slug.filter fun c => c ≠ '-') = text.filter isSlugChar
  /-- Two of these characters with a gap between them, which may be empty, are two characters of the
  slug, with the same ones before and after them, and a hyphen between them unless there is no gap.
  -/
  between : ∀ (before : List Char) (c : Char) (gap : List Char) (d : Char) (after : List Char),
    text = before ++ c :: (gap ++ d :: after) → isSlugChar c = true → isSlugChar d = true →
    (∀ x ∈ gap, isSlugChar x = false) →
    ∃ front back : List Char,
      slug = front ++ c :: ((if gap = [] then [] else ['-']) ++ d :: back) ∧
      (front.filter fun c => c ≠ '-') = before.filter isSlugChar ∧
      (back.filter fun c => c ≠ '-') = after.filter isSlugChar

/-! ## What is kept of a text -/

/-- Without its hyphens it is the characters `a-z0-9`. -/
theorem filter_hyphenated (inGap : Bool) (cs : List Char) :
    ((hyphenated inGap cs).filter fun c => c ≠ '-') = cs.filter isSlugChar := by
  induction cs generalizing inGap with
  | nil => rfl
  | cons c cs ih =>
    cases hc : isSlugChar c with
    | true =>
      have hkeep : (c :: hyphenated false cs).filter (fun c => c ≠ '-') =
          c :: cs.filter isSlugChar := by
        rw [List.filter_cons_of_pos (by simpa using ne_hyphen hc), ih]
      rw [List.filter_cons_of_pos hc]
      cases inGap with
      | false => rw [hyphenated_false_cons cs hc, hkeep]
      | true => rw [hyphenated_true_cons cs hc, List.filter_cons_of_neg (by simp), hkeep]
    | false => rw [hyphenated_cons_gap cs hc, ih, List.filter_cons_of_neg (by simp [hc])]

/-- What comes before a kept character stays before it. -/
theorem hyphenated_append (inGap : Bool) (before : List Char) {c : Char} (rest : List Char)
    (hc : isSlugChar c = true) :
    ∃ front, hyphenated inGap (before ++ c :: rest) = front ++ c :: hyphenated false rest ∧
      (front.filter fun c => c ≠ '-') = before.filter isSlugChar := by
  induction before generalizing inGap with
  | nil =>
    cases inGap with
    | false => exact ⟨[], hyphenated_false_cons rest hc, rfl⟩
    | true => exact ⟨['-'], hyphenated_true_cons rest hc, rfl⟩
  | cons b before ih =>
    rw [List.cons_append]
    cases hb : isSlugChar b with
    | true =>
      obtain ⟨front, hfront, hkept⟩ := ih false
      have hcons : ((b :: front).filter fun c => c ≠ '-') = (b :: before).filter isSlugChar := by
        rw [List.filter_cons_of_pos (by simpa using ne_hyphen hb), hkept,
          List.filter_cons_of_pos hb]
      cases inGap with
      | false =>
        refine ⟨b :: front, ?_, hcons⟩
        rw [hyphenated_false_cons _ hb, hfront, List.cons_append]
      | true =>
        refine ⟨'-' :: b :: front, ?_, ?_⟩
        · rw [hyphenated_true_cons _ hb, hfront, List.cons_append, List.cons_append]
        · rw [List.filter_cons_of_neg (by simp), hcons]
    | false =>
      obtain ⟨front, hfront, hkept⟩ := ih true
      refine ⟨front, ?_, ?_⟩
      · rw [hyphenated_cons_gap _ hb, hfront]
      · rw [hkept, List.filter_cons_of_neg (by simp [hb])]

/-- A gap of any length that is not empty becomes one hyphen. -/
theorem hyphenated_gap {gap : List Char} (hgap : ∀ x ∈ gap, isSlugChar x = false) {d : Char}
    (after : List Char) (hd : isSlugChar d = true) :
    hyphenated false (gap ++ d :: after) =
      (if gap = [] then [] else ['-']) ++ d :: hyphenated false after := by
  have htrue : ∀ gap : List Char, (∀ x ∈ gap, isSlugChar x = false) →
      hyphenated true (gap ++ d :: after) = '-' :: d :: hyphenated false after := by
    intro gap hgap
    induction gap with
    | nil => exact hyphenated_true_cons after hd
    | cons x gap ih =>
      rw [List.cons_append, hyphenated_cons_gap _ (hgap x List.mem_cons_self)]
      exact ih fun y hy => hgap y (List.mem_cons_of_mem _ hy)
  cases gap with
  | nil => exact hyphenated_false_cons after hd
  | cons x gap =>
    rw [List.cons_append, hyphenated_cons_gap _ (hgap x List.mem_cons_self),
      htrue gap fun y hy => hgap y (List.mem_cons_of_mem _ hy), if_neg (List.cons_ne_nil x gap)]
    rfl

/-- Dropping the gap that a text begins with stops at the first kept character. -/
theorem dropWhile_append_slugChar (before : List Char) {c : Char} (rest : List Char)
    (hc : isSlugChar c = true) :
    ((before ++ c :: rest).dropWhile fun c => !isSlugChar c) =
      (before.dropWhile fun c => !isSlugChar c) ++ c :: rest := by
  induction before with
  | nil => rw [List.nil_append, List.dropWhile_cons, hc]; rfl
  | cons b before ih =>
    cases hb : isSlugChar b with
    | true => simp only [List.cons_append, List.dropWhile_cons, hb, Bool.not_true,
        Bool.false_eq_true, if_false]
    | false => simp only [List.cons_append, List.dropWhile_cons, hb, Bool.not_false, if_true, ih]

/-- Dropping a gap drops none of the characters `a-z0-9`. -/
theorem filter_dropWhile_gap (cs : List Char) :
    (cs.dropWhile fun c => !isSlugChar c).filter isSlugChar = cs.filter isSlugChar := by
  induction cs with
  | nil => rfl
  | cons c cs ih =>
    cases hc : isSlugChar c with
    | true => rw [List.dropWhile_cons, hc]; rfl
    | false =>
      rw [List.dropWhile_cons, hc, List.filter_cons_of_neg (by simp [hc])]
      exact ih

/-- What `slugify` makes of a text in lower case comes from it as a slug does. -/
theorem hyphenates_hyphenated (text : List Char) :
    Hyphenates text (hyphenated false (text.dropWhile fun c => !isSlugChar c)) := by
  refine ⟨by rw [filter_hyphenated, filter_dropWhile_gap], ?_⟩
  rintro before c gap d after rfl hc hd hgap
  rw [dropWhile_append_slugChar before _ hc]
  obtain ⟨front, hfront, hkept⟩ :=
    hyphenated_append false (before.dropWhile fun c => !isSlugChar c) (gap ++ d :: after) hc
  refine ⟨front, hyphenated false after, ?_, ?_, filter_hyphenated false after⟩
  · rw [hfront, hyphenated_gap hgap after hd]
  · rw [hkept, filter_dropWhile_gap]

/-! ## Words -/

/-- Another word goes before words. -/
theorem AreWords.cons {word : List Char} {words : List (List Char)} (hne : word ≠ [])
    (hword : ∀ c ∈ word, isSlugChar c = true) (h : AreWords words) : AreWords (word :: words) := by
  refine ⟨List.cons_ne_nil _ _, fun w hw => ?_⟩
  rcases List.mem_cons.mp hw with rfl | hw
  · exact ⟨hne, hword⟩
  · exact h.2 w hw

/-- What follows a word goes on with that word, or is further words. -/
theorem exists_words (inGap : Bool) (cs : List Char) {word : List Char} (hne : word ≠ [])
    (hword : ∀ c ∈ word, isSlugChar c = true) :
    ∃ words, AreWords words ∧ word ++ hyphenated inGap cs = ['-'].intercalate words := by
  induction cs generalizing inGap word with
  | nil =>
    refine ⟨[word], ⟨List.cons_ne_nil _ _, fun w hw => ?_⟩, ?_⟩
    · rw [List.mem_singleton.mp hw]
      exact ⟨hne, hword⟩
    · rw [hyphenated, List.append_nil, List.intercalate_singleton]
  | cons c cs ih =>
    cases hc : isSlugChar c with
    | true =>
      have hchars : ∀ d ∈ [c], isSlugChar d = true := fun d hd => by
        rw [List.mem_singleton.mp hd]
        exact hc
      cases inGap with
      | false =>
        have hlonger : ∀ d ∈ word ++ [c], isSlugChar d = true := by
          intro d hd
          rcases List.mem_append.mp hd with hd | hd
          · exact hword d hd
          · exact hchars d hd
        obtain ⟨words, hwords, heq⟩ := ih false (List.append_ne_nil_of_left_ne_nil hne _) hlonger
        refine ⟨words, hwords, ?_⟩
        rw [hyphenated_false_cons cs hc, ← heq, List.append_assoc]
        rfl
      | true =>
        -- The word is over, and `c` begins the next one.
        obtain ⟨words, hwords, heq⟩ := ih false (List.cons_ne_nil c []) hchars
        refine ⟨word :: words, hwords.cons hne hword, ?_⟩
        rw [hyphenated_true_cons cs hc, List.intercalate_cons_of_ne_nil hwords.1, ← heq]
        simp
    | false =>
      rw [hyphenated_cons_gap cs hc]
      exact ih true hne hword

/-- A word is kept as it is. -/
theorem hyphenated_word {word : List Char} (hword : ∀ c ∈ word, isSlugChar c = true)
    (rest : List Char) : hyphenated false (word ++ rest) = word ++ hyphenated false rest := by
  induction word with
  | nil => rfl
  | cons c word ih =>
    rw [List.cons_append, hyphenated_false_cons _ (hword c List.mem_cons_self),
      ih fun d hd => hword d (List.mem_cons_of_mem _ hd), List.cons_append]

/-- Words joined by hyphens are kept as they are, and begin with a kept character. -/
theorem hyphenated_words {words : List (List Char)} (h : AreWords words) :
    hyphenated false (['-'].intercalate words) = ['-'].intercalate words ∧
      ∃ c cs, ['-'].intercalate words = c :: cs ∧ isSlugChar c = true := by
  induction words with
  | nil => exact absurd rfl h.1
  | cons word words ih =>
    obtain ⟨hne, hword⟩ := h.2 word List.mem_cons_self
    obtain ⟨c, cs, rfl⟩ := List.exists_cons_of_ne_nil hne
    have hc : isSlugChar c = true := hword c List.mem_cons_self
    by_cases hwords : words = []
    · obtain rfl := hwords
      rw [List.intercalate_singleton]
      refine ⟨?_, c, cs, rfl, hc⟩
      have hall := hyphenated_word hword []
      rwa [List.append_nil, hyphenated, List.append_nil] at hall
    · have hrest : AreWords words := ⟨hwords, fun w hw => h.2 w (List.mem_cons_of_mem _ hw)⟩
      obtain ⟨hfix, d, ds, hstart, hd⟩ := ih hrest
      rw [List.intercalate_cons_of_ne_nil hwords]
      refine ⟨?_, c, cs ++ ['-'] ++ ['-'].intercalate words, by simp, hc⟩
      rw [List.append_assoc, hyphenated_word hword, hstart, List.singleton_append,
        hyphenated_cons_gap _ (by decide), hyphenated_true_cons ds hd,
        ← hyphenated_false_cons ds hd, ← hstart, hfix]

/-- Words joined by hyphens have no other characters. -/
theorem mem_words {words : List (List Char)}
    (h : ∀ word ∈ words, ∀ c ∈ word, isSlugChar c = true) {c : Char}
    (hc : c ∈ ['-'].intercalate words) : isSlugChar c = true ∨ c = '-' := by
  induction words with
  | nil => exact absurd hc List.not_mem_nil
  | cons word words ih =>
    by_cases hwords : words = []
    · obtain rfl := hwords
      rw [List.intercalate_singleton] at hc
      exact Or.inl (h word List.mem_cons_self c hc)
    · rw [List.intercalate_cons_of_ne_nil hwords, List.append_assoc] at hc
      rcases List.mem_append.mp hc with hc | hc
      · exact Or.inl (h word List.mem_cons_self c hc)
      · rcases List.mem_append.mp hc with hc | hc
        · exact Or.inr (List.mem_singleton.mp hc)
        · exact ih (fun w hw => h w (List.mem_cons_of_mem _ hw)) hc

/-- Words joined by a hyphen with one more word are words. -/
theorem intercalate_concat {words : List (List Char)} (h : words ≠ []) (word : List Char) :
    ['-'].intercalate (words ++ [word]) = ['-'].intercalate words ++ '-' :: word := by
  induction words with
  | nil => exact absurd rfl h
  | cons w words ih =>
    by_cases hwords : words = []
    · obtain rfl := hwords
      show ['-'].intercalate [w, word] = _
      rw [List.intercalate_cons_cons, List.intercalate_singleton, List.intercalate_singleton]
      simp
    · rw [List.cons_append, List.intercalate_cons_of_ne_nil (by simp), ih hwords,
        List.intercalate_cons_of_ne_nil hwords]
      simp

/-! ## Slugs of names -/

/-- White space is not one of the characters of a slug. -/
theorem isPySpace_eq_false {c : Char} (h : isSlugChar c = true ∨ c = '-') :
    isPySpace c = false := by
  have hcode : 97 ≤ c.toNat ∧ c.toNat ≤ 122 ∨ 48 ≤ c.toNat ∧ c.toNat ≤ 57 ∨ c.toNat = 45 := by
    rcases h with h | rfl
    · simp only [isSlugChar, Bool.or_eq_true, Bool.and_eq_true, decide_eq_true_eq] at h
      rcases h with ⟨hlo, hhi⟩ | ⟨hlo, hhi⟩
      · exact Or.inl ⟨hlo, hhi⟩
      · exact Or.inr (Or.inl ⟨hlo, hhi⟩)
    · exact Or.inr (Or.inr rfl)
  unfold isPySpace
  rw [decide_eq_false_iff_not]
  simp only [List.mem_cons, List.not_mem_nil, or_false]
  omega

/-- What `slugify` returns for a name: the text in lower case from its first kept character on, with
a hyphen for each gap, or `model` if none is kept. -/
theorem slugify_eq (lower : String → String) (value : String) :
    slugify lower value =
      let text := (lower (String.ofList (stripWhere isPySpace value.toList))).toList
      if text.filter isSlugChar = [] then "model"
      else String.ofList (hyphenated false (text.dropWhile fun c => !isSlugChar c)) := by
  unfold slugify
  dsimp only
  rw [stripWhere_collapse]
  generalize (lower (String.ofList (stripWhere isPySpace value.toList))).toList = text
  have hkept : ((hyphenated false (text.dropWhile fun c => !isSlugChar c)).filter fun c =>
      c ≠ '-') = text.filter isSlugChar := (hyphenates_hyphenated text).kept
  have hempty : hyphenated false (text.dropWhile fun c => !isSlugChar c) = [] ↔
      text.filter isSlugChar = [] := by
    constructor
    · intro h
      rw [← hkept, h]
      rfl
    · intro h
      have hdrop : text.dropWhile (fun c => !isSlugChar c) = [] := by
        rw [List.dropWhile_eq_nil_iff]
        intro c hc
        have hnot : ¬isSlugChar c = true := fun hslug =>
          absurd (List.mem_filter.mpr ⟨hc, hslug⟩) (by rw [h]; exact List.not_mem_nil)
        simpa using hnot
      rw [hdrop]
      rfl
  by_cases h : text.filter isSlugChar = []
  · rw [if_pos (hempty.mpr h), if_pos h]
  · rw [if_neg (mt hempty.mp h), if_neg h]

/-- A gap at the end leaves no hyphen. -/
theorem hyphenated_append_gap (inGap : Bool) (cs : List Char) {gap : List Char}
    (hgap : ∀ x ∈ gap, isSlugChar x = false) :
    hyphenated inGap (cs ++ gap) = hyphenated inGap cs := by
  induction cs generalizing inGap with
  | nil =>
    rw [List.nil_append]
    induction gap generalizing inGap with
    | nil => rfl
    | cons x gap ih =>
      rw [hyphenated_cons_gap gap (hgap x List.mem_cons_self)]
      exact ih (fun y hy => hgap y (List.mem_cons_of_mem _ hy)) true
  | cons c cs ih =>
    rw [List.cons_append, hyphenated, hyphenated, ih, ih]

/-- Gaps around a text make no difference. -/
theorem hyphenated_padded {left right : List Char}
    (h : ∀ c ∈ left ++ right, isSlugChar c = false) (cs : List Char) :
    hyphenated false ((left ++ cs ++ right).dropWhile fun c => !isSlugChar c) =
      hyphenated false (cs.dropWhile fun c => !isSlugChar c) := by
  have hleft : ∀ c ∈ left, (!isSlugChar c) = true := fun c hc => by
    rw [h c (List.mem_append_left _ hc)]
    rfl
  have hright : ∀ c ∈ right, isSlugChar c = false := fun c hc => h c (List.mem_append_right _ hc)
  rw [List.append_assoc, List.dropWhile_append_of_pos hleft]
  induction cs with
  | nil =>
    have hnone : right.dropWhile (fun c => !isSlugChar c) = [] := by
      rw [List.dropWhile_eq_nil_iff]
      intro c hc
      rw [hright c hc]
      rfl
    rw [List.nil_append, hnone]
    rfl
  | cons c cs ih =>
    cases hc : isSlugChar c with
    | true =>
      simp only [List.cons_append, List.dropWhile_cons, hc, Bool.not_true, Bool.false_eq_true,
        if_false]
      rw [← List.cons_append]
      exact hyphenated_append_gap false (c :: cs) hright
    | false =>
      simp only [List.cons_append, List.dropWhile_cons, hc, Bool.not_false, if_true]
      exact ih

/-- A text with gaps around it keeps the same characters. -/
theorem filter_padded {left right : List Char} (h : ∀ c ∈ left ++ right, isSlugChar c = false)
    (cs : List Char) : (left ++ cs ++ right).filter isSlugChar = cs.filter isSlugChar := by
  have hnone : ∀ gap : List Char, (∀ c ∈ gap, isSlugChar c = false) →
      gap.filter isSlugChar = [] := by
    intro gap hgap
    rw [List.filter_eq_nil_iff]
    intro c hc
    rw [hgap c hc]
    decide
  rw [List.filter_append, List.filter_append,
    hnone left fun c hc => h c (List.mem_append_left _ hc),
    hnone right fun c hc => h c (List.mem_append_right _ hc), List.nil_append, List.append_nil]

/-- Stripping a text takes it out of characters of the class that is stripped. -/
theorem exists_stripWhere (p : Char → Bool) (cs : List Char) :
    ∃ left right : List Char, (∀ c ∈ left ++ right, p c = true) ∧
      cs = left ++ stripWhere p cs ++ right := by
  refine ⟨cs.takeWhile p, (cs.dropWhile p).rtakeWhile p, fun c hc => ?_, ?_⟩
  · rcases List.mem_append.mp hc with hc | hc
    · exact List.mem_takeWhile_imp hc
    · exact List.mem_rtakeWhile_imp hc
  · show cs = cs.takeWhile p ++ (cs.dropWhile p).rdropWhile p ++ _
    rw [List.append_assoc, List.rdropWhile_append_rtakeWhile, List.takeWhile_append_dropWhile]

/-- A function that folds the characters one by one lower-cases the white space around a name apart
from what `strip` leaves. -/
theorem lowerCased_lower {fold : Char → List Char}
    (hspace : ∀ c, isPySpace c = true → ∀ d ∈ fold c, isSlugChar d = false) (value : String) :
    LowerCased (fun s => String.ofList (s.toList.flatMap fold)) value
      (value.toList.flatMap fold) := by
  obtain ⟨left, right, hpadding, hvalue⟩ := exists_stripWhere isPySpace value.toList
  refine ⟨left.flatMap fold, right.flatMap fold, fun d hd => ?_, ?_⟩
  · rw [← List.flatMap_append] at hd
    obtain ⟨c, hc, hd⟩ := List.mem_flatMap.mp hd
    exact hspace c (hpadding c hc) d hd
  · rw [String.toList_ofList, String.toList_ofList, ← List.flatMap_append, ← List.flatMap_append,
      ← hvalue]

/-- A slug of a name is the slug of its text in lower case. -/
theorem slugify_of_lowerCased {lower : String → String} {value : String} {text : List Char}
    (h : LowerCased lower value text) :
    slugify lower value =
      if text.filter isSlugChar = [] then "model"
      else String.ofList (hyphenated false (text.dropWhile fun c => !isSlugChar c)) := by
  obtain ⟨left, right, hpadding, rfl⟩ := h
  rw [slugify_eq, hyphenated_padded hpadding, filter_padded hpadding]

/-- What `slugify` returns is a slug. -/
theorem isSlug_slugify (lower : String → String) (value : String) :
    IsSlug (slugify lower value) := by
  rw [slugify_eq]
  dsimp only
  generalize (lower (String.ofList (stripWhere isPySpace value.toList))).toList = text
  by_cases h : text.filter isSlugChar = []
  · rw [if_pos h]
    have hwords : AreWords ["model".toList] := by
      refine ⟨List.cons_ne_nil _ _, fun word hword => ?_⟩
      rw [List.mem_singleton.mp hword]
      exact ⟨by decide, List.all_eq_true.mp (by decide)⟩
    exact ⟨["model".toList], hwords, List.intercalate_singleton.symm⟩
  · rw [if_neg h]
    unfold IsSlug
    rw [String.toList_ofList]
    -- The text has a first kept character, and it begins the first word.
    rw [← filter_dropWhile_gap] at h
    cases hdrop : text.dropWhile fun c => !isSlugChar c with
    | nil =>
      rw [hdrop] at h
      exact absurd rfl h
    | cons c cs =>
      have hc : isSlugChar c = true := by
        have hhead := List.head_dropWhile_not (fun c => !isSlugChar c) (l := text)
          (by rw [hdrop]; simp)
        simp only [hdrop, List.head_cons, Bool.not_eq_false'] at hhead
        exact hhead
      rw [hyphenated_false_cons cs hc]
      refine exists_words false cs (List.cons_ne_nil c []) fun d hd => ?_
      rw [List.mem_singleton.mp hd]
      exact hc

/-- A slug is its own slug. -/
theorem slugify_of_isSlug {lower : String → String} (hlower : FixesSlugs lower) {s : String}
    (h : IsSlug s) : slugify lower s = s := by
  obtain ⟨words, hwords, hs⟩ := h
  have hchars : ∀ c ∈ s.toList, isSlugChar c = true ∨ c = '-' := by
    intro c hc
    rw [hs] at hc
    exact mem_words (fun word hword => (hwords.2 word hword).2) hc
  -- There is nothing to strip and nothing to lower-case.
  have hstrip : stripWhere isPySpace s.toList = s.toList :=
    stripWhere_of_forall fun c hc => isPySpace_eq_false (hchars c hc)
  obtain ⟨hfix, c, cs, hstart, hc⟩ := hyphenated_words hwords
  rw [← hs] at hfix hstart
  have hkept : s.toList.filter isSlugChar ≠ [] := by
    rw [hstart, List.filter_cons_of_pos hc]
    exact List.cons_ne_nil _ _
  have hdrop : s.toList.dropWhile (fun c => !isSlugChar c) = s.toList := by
    rw [hstart, List.dropWhile_cons, hc]
    rfl
  rw [slugify_eq]
  dsimp only
  rw [hstrip, String.ofList_toList, hlower s hchars, if_neg hkept, hdrop, hfix,
    String.ofList_toList]

/-- A slug with a number is a slug. -/
theorem isSlug_numbered {base : String} (h : IsSlug base) (n : ℕ) : IsSlug s!"{base}-{n}" := by
  obtain ⟨words, hwords, hs⟩ := h
  have hdigits : ∀ c ∈ (Nat.repr n).toList, isSlugChar c = true := by
    intro c hc
    rw [Nat.toList_repr] at hc
    have hdigit : c.isDigit = true := Nat.isDigit_of_mem_toDigits (by decide) (by decide) hc
    unfold isSlugChar
    rw [Bool.or_eq_true]
    exact Or.inr hdigit
  have hne : (Nat.repr n).toList ≠ [] := by
    rw [Nat.toList_repr]
    exact Nat.toDigits_ne_nil
  refine ⟨words ++ [(Nat.repr n).toList], ⟨by simp, fun word hword => ?_⟩, ?_⟩
  · rcases List.mem_append.mp hword with hword | hword
    · exact hwords.2 word hword
    · rw [List.mem_singleton.mp hword]
      exact ⟨hne, hdigits⟩
  · show (base ++ "-" ++ Nat.repr n).toList = _
    rw [String.toList_append, String.toList_append, intercalate_concat hwords.1, ← hs,
      List.append_assoc]
    rfl

/-- Slugs are canonical. For every string, of `str.lower` assuming only that it fixes lower-case
ASCII letters, digits and hyphens: the result is a slug; it comes from the text in lower case by
deleting everything but `a-z0-9` and putting one hyphen for each gap, or is `model` if there are no
such characters; slugs are their own slugs, so that `slugify` is idempotent; and a slug with a
number is a slug. -/
theorem slugify_canonical {lower : String → String} (hlower : FixesSlugs lower) :
    (∀ s, IsSlug (slugify lower s)) ∧
      (∀ s text, LowerCased lower s text →
        (text.filter isSlugChar = [] → slugify lower s = "model") ∧
          (text.filter isSlugChar ≠ [] → Hyphenates text (slugify lower s).toList)) ∧
      (∀ s, slugify lower (slugify lower s) = slugify lower s) ∧
      (∀ s, IsSlug s → slugify lower s = s) ∧
      ∀ base n, IsSlug base → 2 ≤ n → IsSlug s!"{base}-{n}" := by
  refine ⟨isSlug_slugify lower, ?_, ?_, ?_, ?_⟩
  · intro s text htext
    rw [slugify_of_lowerCased htext]
    constructor
    · intro hnone
      rw [if_pos hnone]
    · intro hsome
      rw [if_neg hsome, String.toList_ofList]
      exact hyphenates_hyphenated text
  · intro s
    exact slugify_of_isSlug hlower (isSlug_slugify lower s)
  · intro s hs
    exact slugify_of_isSlug hlower hs
  · intro base n hbase _
    exact isSlug_numbered hbase n

/-- Lower-casing the ASCII letters. -/
def lowerAscii (s : String) : String := String.ofList (s.toList.flatMap fun c => [c.toLower])

/-- It fixes slugs. -/
theorem lowerAscii_fixesSlugs : FixesSlugs lowerAscii := by
  intro s hs
  have hfix : ∀ cs : List Char, (∀ c ∈ cs, isSlugChar c = true ∨ c = '-') →
      (cs.flatMap fun c => [c.toLower]) = cs := by
    intro cs hcs
    induction cs with
    | nil => rfl
    | cons c cs ih =>
      have hc : c.toLower = c := by
        have hnot : ¬(c.val ≥ 'A'.val ∧ c.val ≤ 'Z'.val) := by
          rintro ⟨hlo, hhi⟩
          have hlo' : 65 ≤ c.toNat := hlo
          have hhi' : c.toNat ≤ 90 := hhi
          rcases hcs c List.mem_cons_self with hslug | rfl
          · simp only [isSlugChar, Bool.or_eq_true, Bool.and_eq_true, decide_eq_true_eq] at hslug
            rcases hslug with ⟨ha, -⟩ | ⟨-, hz⟩
            · have ha' : 97 ≤ c.toNat := ha
              omega
            · have hz' : c.toNat ≤ 57 := hz
              omega
          · exact absurd hlo' (by decide)
        unfold Char.toLower
        rw [dif_neg hnot]
      rw [List.flatMap_cons, hc, ih fun d hd => hcs d (List.mem_cons_of_mem _ hd)]
      rfl
  unfold lowerAscii
  rw [hfix s.toList hs, String.ofList_toList]

/-- It leaves white space alone. -/
theorem isSlugChar_toLower_of_isPySpace {c : Char} (h : isPySpace c = true) :
    ∀ d ∈ [c.toLower], isSlugChar d = false := by
  have hcode : c.toNat ≤ 32 ∨ 133 ≤ c.toNat := by
    simp only [isPySpace, decide_eq_true_eq, List.mem_cons, List.not_mem_nil, or_false] at h
    omega
  have hlower : c.toLower = c := by
    unfold Char.toLower
    refine dif_neg ?_
    rintro ⟨hlo, hhi⟩
    have hlo' : 65 ≤ c.toNat := hlo
    have hhi' : c.toNat ≤ 90 := hhi
    omega
  intro d hd
  rw [List.mem_singleton.mp hd, hlower]
  by_contra hslug
  have hspace := isPySpace_eq_false (Or.inl (Bool.of_not_eq_false hslug))
  rw [h] at hspace
  exact absurd hspace (by decide)

/-- A name with white space around it, two separators in a row, and one at the end. -/
theorem slugify_canonical_pump :
    slugify lowerAscii "  Pump & Failure! " = "pump-failure" ∧
      Hyphenates (lowerAscii "  Pump & Failure! ").toList "pump-failure".toList ∧
      IsSlug "pump-failure-2" := by
  obtain ⟨hslug, hcomes, -, -, hnumber⟩ := slugify_canonical lowerAscii_fixesSlugs
  have heq : slugify lowerAscii "  Pump & Failure! " = "pump-failure" := by decide
  have htext : LowerCased lowerAscii "  Pump & Failure! "
      (lowerAscii "  Pump & Failure! ").toList := by
    have hfolded := lowerCased_lower (fun c => isSlugChar_toLower_of_isPySpace (c := c))
      "  Pump & Failure! "
    show LowerCased _ _ (String.ofList _).toList
    rw [String.toList_ofList]
    exact hfolded
  have hslug' := hslug "  Pump & Failure! "
  have hhyphens := (hcomes _ _ htext).2 (by decide)
  rw [heq] at hslug' hhyphens
  exact ⟨heq, hhyphens, hnumber "pump-failure" 2 hslug' (by decide)⟩

end MlopsPlatform
