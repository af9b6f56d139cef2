import Mathlib.Data.List.Basic

/-!
# Slugs

`core/text.py`. `str.lower` folds case over the whole of Unicode, so it is a parameter here.
-/

namespace MlopsPlatform

/-- The white space that `str.strip()` removes at both ends. -/
def isPySpace (c : Char) : Bool :=
  c.toNat ∈ [0x09, 0x0a, 0x0b, 0x0c, 0x0d, 0x1c, 0x1d, 0x1e, 0x1f, 0x20, 0x85, 0xa0, 0x1680,
    0x2000, 0x2001, 0x2002, 0x2003, 0x2004, 0x2005, 0x2006, 0x2007, 0x2008, 0x2009, 0x200a,
    0x2028, 0x2029, 0x202f, 0x205f, 0x3000]

/-- `str.strip` on a class of characters: drop them at both ends. -/
def stripWhere (p : Char → Bool) (cs : List Char) : List Char :=
  ((cs.dropWhile p).reverse.dropWhile p).reverse

/-- The characters `a-z` and `0-9`. -/
def isSlugChar (c : Char) : Bool := ('a' ≤ c && c ≤ 'z') || ('0' ≤ c && c ≤ '9')

/-- `re.sub(r"[^a-z0-9]+", "-", value)`; `inRun` says that the previous character was replaced. -/
def collapse : Bool → List Char → List Char
  | _, [] => []
  | inRun, c :: cs =>
    if isSlugChar c then c :: collapse false cs
    else if inRun then collapse true cs
    else '-' :: collapse true cs

/-- Turn a name into a URL-safe slug: runs of other characters than `a-z0-9` collapse to a single
hyphen, and an empty result falls back to `model`. -/
def slugify (lower : String → String) (value : String) : String :=
  let value := lower (String.ofList (stripWhere isPySpace value.toList))
  let slug := stripWhere (fun c => c = '-') (collapse false value.toList)
  if slug = [] then "model" else String.ofList slug

end MlopsPlatform
