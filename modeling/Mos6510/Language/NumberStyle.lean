import Mos6510.Text.Digits

/-!
# How languages write numbers

The digits, the mark between groups of them and the minus sign of the locales
of the world.  A group has three digits; where the grouping is Indian, all but
the last group have two.
-/

namespace Mos6510.Language

/-- How numbers are written. -/
structure NumberStyle where
  /-- What stands between groups of digits. -/
  group : String := ","
  /-- What stands before a negative number. -/
  minus : String := "-"
  /-- The ten digits. -/
  digits : String := "0123456789"
  /-- The size of all groups but the last. -/
  size : Nat := 3
  deriving DecidableEq, Repr, Inhabited

/-- Put a mark between groups of digits.  The digits come least significant
first, and `left` of them still belong to the group at hand. -/
def separate (mark : List Char) (size : Nat) : Nat → List Char → List Char
  | _, [] => []
  | 0, d :: rest => mark.reverse ++ d :: separate mark size (size - 1) rest
  | left + 1, d :: rest => d :: separate mark size left rest

def NumberStyle.render (s : NumberStyle) (n : Int) : String :=
  let ds := (Text.digits Text.upperDigit 10 n.natAbs).map fun c =>
    s.digits.toList.getD (c.toNat - 48) c
  (if n < 0 then s.minus else "") ++
    String.ofList (separate s.group.toList s.size 3 ds.reverse).reverse

/-! ## Systems of digits -/

/-- Ten digits in a row, from the code of the first one. -/
def digitsFrom (first : Nat) : String :=
  String.ofList ((List.range 10).map fun d => Char.ofNat (first + d))

/-- The first digits of the systems that count by place. -/
def digitSystems : List (String × Nat) := [
  ("adlm", 0x1E950), ("ahom", 0x11730), ("arab", 0x660), ("arabext", 0x6F0), ("bali", 0x1B50),
  ("beng", 0x9E6), ("bhks", 0x11C50), ("brah", 0x11066), ("cakm", 0x11136), ("cham", 0xAA50),
  ("deva", 0x966), ("fullwide", 0xFF10), ("gonm", 0x11D50), ("gujr", 0xAE6), ("guru", 0xA66),
  ("hmng", 0x16B50), ("java", 0xA9D0), ("kali", 0xA900), ("khmr", 0x17E0), ("knda", 0xCE6),
  ("lana", 0x1A80), ("lanatham", 0x1A90), ("laoo", 0xED0), ("latn", 0x30), ("lepc", 0x1C40),
  ("limb", 0x1946), ("mathbold", 0x1D7CE), ("mathdbl", 0x1D7D8), ("mathmono", 0x1D7F6),
  ("mathsanb", 0x1D7EC), ("mathsans", 0x1D7E2), ("mlym", 0xD66), ("modi", 0x11650),
  ("mong", 0x1810), ("mroo", 0x16A60), ("mtei", 0xABF0), ("mymr", 0x1040), ("mymrshan", 0x1090),
  ("mymrtlng", 0xA9F0), ("newa", 0x11450), ("nkoo", 0x7C0), ("olck", 0x1C50), ("orya", 0xB66),
  ("osma", 0x104A0), ("saur", 0xA8D0), ("shrd", 0x111D0), ("sind", 0x112F0),
  ("sinhlith", 0xDE6), ("sora", 0x110F0), ("sund", 0x1BB0), ("takr", 0x116C0), ("talu", 0x19D0),
  ("tamldec", 0xBE6), ("telu", 0xC66), ("thai", 0xE50), ("tibt", 0xF20), ("tirh", 0x114D0),
  ("vaii", 0xA620), ("wara", 0x118E0)]

/-- Systems that do not count by place; they are written in plain digits. -/
def otherSystems : List String :=
  ["armn", "armnlow", "cyrl", "ethi", "geor", "grek", "greklow", "hanidays", "hans", "hansfin",
    "hant", "hantfin", "hebr", "jpan", "jpanfin", "roman", "romanlow", "taml"]

def systemDigits? (system : String) : Option String :=
  if system == "hanidec" then some "〇一二三四五六七八九"
  else if otherSystems.contains system then some (digitsFrom 0x30)
  else (digitSystems.lookup system).map digitsFrom

/-! ## Locales -/

/-- The mark between groups that is a blank at which no line ends. -/
def blank : String := "\u00A0"

def longMinus : String := "\u2212"

/-- The styles of languages, and of languages in a script or region. -/
def styles : List (NumberStyle × String) := [
  ({ group := blank }, "af agq bas be bg br cs dje dua dyo ewo ff fr hu hy ka kab kea khq kk " ++
    "ksf ky lv mfe nmg os pl prg ru sah ses shi shi-Latn sk smn sq tg tk tt twq tzm uk uz " ++
    "uz-Cyrl xh yav zgh und-UZ de-AT en-AT en-FI en-SE en-ZA es-CR pt-AO pt-CH pt-CV pt-GQ " ++
    "pt-GW pt-LU pt-MO pt-MZ pt-PT pt-ST pt-TL"),
  ({ group := blank, minus := longMinus }, "eo et fi ksh lt nb nn no se sv"),
  ({ group := "." }, "ast az az-Cyrl bs bs-Cyrl ca da de dsb el es fur fy gl hsb id is it jgo " ++
    "jv kkj kl ku lb ln lo lu mgh mk mua nds nl nnh pt rn ro rw seh sg sr sr-Latn tr vi wo " ++
    "und-AZ " ++
    "und-BA und-ME und-RS en-BE en-DE en-DK en-NL en-SI fr-LU fr-MA ms-BN qu-BO sw-CD"),
  ({ group := ".", minus := longMinus }, "eu fo hr sl"),
  ({ group := "\u2019" }, "wae de-CH de-LI en-CH it-CH"),
  ({ group := "\u2019", minus := longMinus }, "gsw rm"),
  ({}, "es-419 es-BR es-BZ es-CU es-DO es-GT es-HN es-MX es-NI es-PA es-PE es-PR es-SV es-US " ++
    "ta-MY ta-SG"),
  ({ size := 2 }, "brx en-IN gu hi kok ml or pa ta te"),
  ({ minus := "\u200E-" }, "he ur ar-AE ar-EH"),
  ({ group := ".", minus := "\u200E-" }, "ar-DZ ar-LY ar-MA ar-TN"),
  ({ group := "\u066C", minus := "\u061C-", digits := digitsFrom 0x660 }, "ar sd"),
  ({ group := "\u066C", minus := "\u200F-", digits := digitsFrom 0x660 }, "ckb"),
  ({ group := "\u066C", minus := "\u200E\u2212", digits := digitsFrom 0x6F0 }, "fa"),
  ({ group := "\u066C", minus := "\u200E-\u200E", digits := digitsFrom 0x6F0 },
    "ks lrc mzn ps pa-Arab pa-PK ur-IN uz-Arab uz-AF"),
  ({ digits := digitsFrom 0x9E6, size := 2 }, "as bn"),
  ({ digits := digitsFrom 0x966, size := 2 }, "mr ne"),
  ({ digits := digitsFrom 0x11136, size := 2 }, "ccp"),
  ({ digits := digitsFrom 0xF20, size := 2 }, "dz"),
  ({ digits := digitsFrom 0x1040 }, "my")]

/-- The style of a locale, if it has one of its own. -/
def style? (locale : String) : Option NumberStyle :=
  (styles.find? fun s => (s.2.splitOn " ").contains locale).map (·.1)

/-- The scripts of languages that are written in another one than the Latin. -/
def usualScripts : List (String × String) := [
  ("Arab", "ar ckb fa ks lrc mzn ps sd ug ur"), ("Armn", "hy"), ("Beng", "as bn"),
  ("Cakm", "ccp"), ("Cyrl", "be bg ce kk ky mk mn os ru sah sr tg tt uk"),
  ("Deva", "brx hi kok mr ne"), ("Ethi", "am ti"), ("Geor", "ka"), ("Grek", "el"),
  ("Gujr", "gu"), ("Guru", "pa"), ("Hans", "zh"), ("Hant", "yue"), ("Hebr", "he yi"),
  ("Jpan", "ja"), ("Khmr", "km"), ("Knda", "kn"), ("Kore", "ko"), ("Laoo", "lo"),
  ("Mlym", "ml"), ("Mymr", "my"), ("Orya", "or"), ("Sinh", "si"), ("Taml", "ta"),
  ("Telu", "te"), ("Tfng", "shi zgh"), ("Thai", "th"), ("Tibt", "bo dz"), ("Vaii", "vai")]

/-- The script that a language is usually written in. -/
def usualScript (language : String) : String :=
  ((usualScripts.find? fun s => (s.2.splitOn " ").contains language).map (·.1)).getD "Latn"

/-- The style of the closest locale: that of the language in the region, or in
an unusual script; else that of the language. -/
def closestStyle (language script region : String) : NumberStyle :=
  if script.isEmpty then
    ((style? (language ++ "-" ++ region)).orElse fun _ => style? language).getD {}
  else if script == usualScript language then (style? language).getD {}
  else (style? (language ++ "-" ++ script)).getD {}

/-- The marks of the Arabic digits, whatever the language. -/
def arabicMarks (s : NumberStyle) (system : String) : NumberStyle :=
  let minus := if system == "arab" then "\u061C-" else "\u200E-\u200E"
  { s with group := "\u066C", minus := minus }

/-- The style of a locale with plain digits. -/
def plainMarks (s : NumberStyle) : NumberStyle :=
  if s.group == "\u066C" then
    { s with
      group := ","
      minus := if s.minus == "\u200E\u2212" then s.minus else "\u200E-" }
  else s

/-- A style with the digits of another system, if there is such a system.
Arabic digits have marks of their own. -/
def NumberStyle.inSystem (s : NumberStyle) (system : String) : NumberStyle :=
  match systemDigits? system with
  | none => s
  | some digits =>
    if s.digits == digits then s
    else if system == "arab" || system == "arabext" then { arabicMarks s system with digits }
    else { plainMarks s with digits }

end Mos6510.Language
