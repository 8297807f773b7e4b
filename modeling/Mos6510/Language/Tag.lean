import Mos6510.Language.Registry

/-!
# Language tags

A tag such as `de-CH-1901` or `en-u-nu-arab`: a language, perhaps a script, a
region and variants, then extensions.  Subtags are divided by hyphens or
underscores, and their case does not count.

A tag that does not have this form is malformed.  One that has it but names
something that is not registered is refused as well; of several unknown
subtags the first is named.
-/

namespace Mos6510.Language

/-- Why a tag is refused. -/
inductive TagFault where
  | malformed
  /-- A subtag that is not registered. -/
  | unknown (subtag : String)
  /-- A key of an extension is given two values. -/
  | twoValues
  deriving DecidableEq, Repr, Inhabited

def TagFault.message : TagFault → String
  | malformed => "language: tag is not well-formed"
  | unknown subtag => "language: subtag \"" ++ subtag ++ "\" is well-formed but unknown"
  | twoValues => "language: different values for same key in -u extension"

/-- A language tag. -/
structure Tag where
  language : String := "und"
  script : String := ""
  region : String := ""
  /-- Keys of the extension for locales with their values. -/
  keys : List (String × String) := []
  deriving DecidableEq, Repr, Inhabited

/-- Tags that were registered as a whole, and those they stand for. -/
def wholeTags : List (String × Tag) := [
  ("art-lojban", { language := "jbo" }), ("i-ami", { language := "ami" }),
  ("i-bnn", { language := "bnn" }), ("i-hak", { language := "hak" }),
  ("i-klingon", { language := "tlh" }), ("i-lux", { language := "lb" }),
  ("i-navajo", { language := "nv" }), ("i-pwn", { language := "pwn" }),
  ("i-tao", { language := "tao" }), ("i-tay", { language := "tay" }),
  ("i-tsu", { language := "tsu" }), ("no-bok", { language := "nb" }),
  ("no-nyn", { language := "nn" }), ("sgn-be-fr", { language := "sfb" }),
  ("sgn-be-nl", { language := "vgt" }), ("sgn-ch-de", { language := "sgg" }),
  ("zh-guoyu", { language := "cmn" }), ("zh-hakka", { language := "hak" }),
  ("zh-min-nan", { language := "nan" }), ("zh-xiang", { language := "hsn" }),
  ("cel-gaulish", { language := "xtg" }), ("en-gb-oed", { language := "en", region := "GB" }),
  ("i-default", { language := "en" }), ("i-enochian", {}), ("i-mingo", { language := "see" }),
  ("zh-min", { language := "nan" }), ("root", {}),
  ("en-us-posix", { language := "en", region := "US", keys := [("va", "posix")] })]

def isSubtag (s : String) : Bool :=
  1 ≤ s.length && s.length ≤ 8 && s.toList.all Char.isAlphanum

/-- Does a subtag consist of letters? -/
def isWord (s : String) : Bool := s.toList.all Char.isAlpha

def startsWord (s : String) : Bool := (s.toList.head?.map Char.isAlpha).getD false

/-- The subtags of a tag as they are taken: the faults so far, and those to come. -/
structure Subtags where
  faults : List TagFault := []
  rest : List String := []

def Subtags.refuse (r : Subtags) (fault : TagFault) : Subtags :=
  { r with faults := r.faults ++ [fault] }

def Subtags.next (r : Subtags) : Subtags := { r with rest := r.rest.drop 1 }

/-- A language, by the code that it goes by now. -/
def language? (s : String) : Except TagFault String :=
  if !isWord s then .error .malformed
  else if isLanguage s then .ok ((codeAliases.lookup s).getD s)
  else .error (.unknown s)

def script? (s : String) : Except TagFault String :=
  let s := s.capitalize
  if !isWord s then .error .malformed
  else if scriptCodes.contains s then .ok s
  else .error (.unknown s)

/-- A region, by its letters or its number. -/
def region? (s : String) : Except TagFault String :=
  if s.toList.all Char.isDigit && s.length == 3 then
    match regionNumbers.lookup s with
    | some r => .ok r
    | none => if areaNumbers.contains s then .ok s else .error (.unknown "")
  else
    let s := s.toUpper
    if !isWord s || s.length != 2 then .error .malformed
    else if regionCodes.contains s then .ok ((regionAliases.lookup s).getD s)
    else .error (.unknown s)

/-- Take languages of three letters after the first; the last known one
counts. -/
def moreLanguages : List String → Tag × Subtags → Tag × Subtags
  | s :: rest, (t, r) =>
    if s.length == 3 && startsWord s then
      match language? s with
      | .ok l => moreLanguages rest ({ t with language := l }, r.next)
      | .error fault => moreLanguages rest (t, (r.refuse fault).next)
    else (t, r)
  | [], (t, r) => (t, r)

def takeScript (t : Tag) (r : Subtags) : Tag × Subtags :=
  match r.rest with
  | s :: _ =>
    if s.length == 4 && startsWord s then
      match script? s with
      | .ok x => ({ t with script := x }, r.next)
      | .error fault => (t, (r.refuse fault).next)
    else (t, r)
  | [] => (t, r)

def takeRegion (t : Tag) (r : Subtags) : Tag × Subtags :=
  match r.rest with
  | s :: _ =>
    if s.length == 2 || s.length == 3 then
      match region? s with
      | .ok x => ({ t with region := x }, r.next)
      | .error fault => (t, (r.refuse fault).next)
    else (t, r)
  | [] => (t, r)

/-- Take variants, all of which have to be registered. -/
def takeVariants : List String → Subtags → Subtags
  | s :: rest, r =>
    if 4 ≤ s.length then
      takeVariants rest (if variantCodes.contains s then r.next else (r.refuse (.unknown s)).next)
    else r
  | [], r => r

/-- Take the language, script, region and variants of a tag. -/
def takeMain (r : Subtags) : Tag × Subtags :=
  let (t, r) : Tag × Subtags := match r.rest with
    | s :: _ =>
      match language? s with
      | .ok l => ({ language := l }, r.next)
      | .error fault => ({}, (r.refuse fault).next)
    | [] => ({}, r)
  let (t, r) := moreLanguages r.rest (t, r)
  let (t, r) := takeScript t r
  let (t, r) := takeRegion t r
  (t, takeVariants r.rest r)

/-! ## Extensions -/

/-- The subtags of an extension: those up to the next single character. -/
def extensionBody (rest : List String) : List String := rest.takeWhile fun s => 2 ≤ s.length

/-- The keys of an extension for locales, each with the subtags after it. -/
def localeKeys : List String → List (String × List String)
  | [] => []
  | s :: rest =>
    if s.length == 2 then (s, rest.takeWhile fun v => 2 < v.length) :: localeKeys rest
    else localeKeys rest

def hasTwoValues (keys : List (String × List String)) : Bool :=
  keys.any fun k => keys.any fun l => k.1 == l.1 && k.2 != l.2

/-- Take the extensions of a tag; the fuel bounds their number. -/
def takeExtensions : Nat → Tag → Subtags → Tag × Subtags
  | 0, t, r => (t, r)
  | fuel + 1, t, r =>
    match r.rest with
    | [] => (t, r)
    | "x" :: body => (t, if body.isEmpty then r.refuse .malformed else r)
    | s :: rest =>
      if s.length == 1 then
        let body := extensionBody rest
        let r := { r with rest := rest.drop body.length }
        let r := if body.isEmpty then r.refuse .malformed else r
        if s == "u" then
          let keys := localeKeys body
          let r := if hasTwoValues keys then r.refuse .twoValues else r
          let t := if t.keys.isEmpty then
            { t with keys := keys.map fun k => (k.1, "-".intercalate k.2) } else t
          takeExtensions fuel t r
        else takeExtensions fuel t r
      else (t, r.refuse .malformed)

/-- The fault of a tag that counts: that it is malformed, else the first. -/
def worst? (faults : List TagFault) : Option TagFault :=
  if faults.contains .malformed then some .malformed else faults.head?

def Tag.ofText (text : String) : Except TagFault Tag :=
  let text := (text.map fun c => if c == '_' then '-' else c).toLower
  match wholeTags.lookup text with
  | some t => .ok t
  | none =>
    let subtags := text.splitOn "-"
    let first := (subtags.head?.getD "").length
    if !subtags.all isSubtag || 4 ≤ first then .error .malformed
    else if first == 1 && subtags.head? != some "x" then .error .malformed
    else
      let start : Subtags := { rest := subtags }
      let (t, r) := if first == 1 then ({}, start) else takeMain start
      let (t, r) := takeExtensions (subtags.length + 1) t r
      match worst? r.faults with
      | some fault => .error fault
      | none => .ok t

end Mos6510.Language
