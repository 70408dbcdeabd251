/-
LIKE and ILIKE (Utils/StringLike.cpp).

`string_like_match` walks along the string and the pattern together. At a
`%` it tries the rest of the pattern at every place of the string where
the first character fits, by calling itself, and gives up as soon as a try
says that the string has run out: a later place has even less of it.

A string or a pattern and its length is the list of the characters that
are left. What is not an answer is `none`: the fuel has run out. One unit
is a turn of the loop, a call being a turn of its own.

What the parser does with the patterns of LIKE and REGEXP
(Parser/ParserNode.cpp, Utils/StringLike.cpp).

A LIKE pattern that is one text between two `%` is called simple: its
control characters are erased, and the text that is left is looked for in
the string. A REGEXP of nothing but letters, digits, blanks and `.` with
its quantifiers is turned into a LIKE pattern. Each of these scanners reads
the escape character in a way of its own, with the one or two characters
before the current one as all it remembers.

`isalnum` and `tolower` are those of the C locale.
-/
import Compass.Lib.Wildcard

namespace Compass.Like

/-- What the matcher says of a string and a pattern. -/
inductive LikeStatus
  | likeTrue
  | likeFalse
  /-- The string has run out. -/
  | likeAbort
  | likeError
deriving DecidableEq, Repr

-- ======== characters

/-- The wildcard for any text. -/
def percent : UInt8 := '%'.toUInt8

/-- The wildcard for one character. -/
def underscore : UInt8 := '_'.toUInt8

/-- The start of a set of characters. -/
def openSet : UInt8 := '['.toUInt8

/-- The end of a set of characters. -/
def closeSet : UInt8 := ']'.toUInt8

def lowercase (c : UInt8) : UInt8 :=
  if 'A'.toUInt8 ≤ c ∧ c ≤ 'Z'.toUInt8 then 'a'.toUInt8 + (c - 'A'.toUInt8) else c

/-- Whether a character of the string is one of the pattern. -/
def sameChar (isIlike : Bool) (s p : UInt8) : Bool :=
  (!isIlike && s == p) || (isIlike && lowercase s == p)

-- ======== the matcher

/-- The search of a set for a character: whether it is there, and the
pattern from that place or from the end of the set. -/
def scanSet (isIlike : Bool) (s : UInt8) : List UInt8 → Bool × List UInt8
  | [] => (false, [])
  | q :: pp =>
    if q = closeSet then (false, q :: pp)
    else if sameChar isIlike s q then (true, q :: pp)
    else scanSet isIlike s pp

/-- The wildcards behind a `%`: what they leave of the string and of the
pattern, if the string is long enough. -/
def skipWildcards : List UInt8 → List UInt8 → Option (List UInt8 × List UInt8)
  | s, [] => some (s, [])
  | s, q :: p =>
    if q = percent then skipWildcards s p
    else if q = underscore then
      match s with
      | [] => none
      | _ :: s => skipWildcards s p
    else some (s, q :: p)

/-- Whether the pattern behind a `%` can begin at a character; `none` when
it begins with a set that has no end. -/
def startsAt (escape : UInt8) (isIlike : Bool) (firstpat : UInt8) (p : List UInt8) (c : UInt8) :
    Option Bool :=
  if firstpat = openSet ∧ p.head? ≠ some escape then
    match scanSet isIlike c p.tail with
    | (_, []) => none
    | (found, _ :: _) => some found
  else some (sameChar isIlike c firstpat)

/-- The places where the pattern behind a `%` may begin, one after the
other. `call` is the call of the matcher. -/
def tryPlaces (escape : UInt8) (isIlike : Bool)
    (call : List UInt8 → List UInt8 → Option LikeStatus) (firstpat : UInt8) (p : List UInt8) :
    List UInt8 → Option LikeStatus
  | [] => some .likeAbort
  | c :: s =>
    match startsAt escape isIlike firstpat p c with
    | none => some .likeError
    | some false => tryPlaces escape isIlike call firstpat p s
    | some true =>
      match call (c :: s) p with
      | some .likeFalse => tryPlaces escape isIlike call firstpat p s
      | status => status

/-- A turn of the loop, with characters `c` and `q` in front. `call` is the
rest of the loop and the call of the matcher. -/
def likeTurn (escape : UInt8) (isIlike : Bool)
    (call : List UInt8 → List UInt8 → Option LikeStatus) (c : UInt8) (s : List UInt8) (q : UInt8)
    (p : List UInt8) : Option LikeStatus :=
  if q = escape then
    match p with
    | [] => some .likeError
    | lit :: p => if !sameChar isIlike c lit then some .likeFalse else call s p
  else if q = percent then
    match skipWildcards (c :: s) p with
    | none => some .likeAbort
    | some (_, []) => some .likeTrue
    | some (s, f :: p) =>
      if f = escape then
        match p with
        | [] => some .likeError
        | firstpat :: _ => tryPlaces escape isIlike call firstpat (f :: p) s
      else tryPlaces escape isIlike call f (f :: p) s
  else if q = underscore then call s p
  else if q = openSet then
    match scanSet isIlike c p with
    | (true, pp) =>
      -- behind the character found, up to the end of the set
      match pp.tail.dropWhile (· ≠ closeSet) with
      | [] => some .likeError
      | _ :: p => call s p
    | (false, _) => some .likeFalse
  else if !sameChar isIlike c q then some .likeFalse
  else call s p

def stringLikeMatch (escape : UInt8) (isIlike : Bool) :
    Nat → List UInt8 → List UInt8 → Option LikeStatus
  | 0, _, _ => none
  | _ + 1, [], p => some (if p.dropWhile (· = percent) = [] then .likeTrue else .likeAbort)
  | _ + 1, _ :: _, [] => some .likeFalse
  | fuel + 1, c :: s, q :: p =>
    likeTurn escape isIlike (stringLikeMatch escape isIlike fuel) c s q p

def stringLike (str pattern : List UInt8) (escape : UInt8) : Bool :=
  stringLikeMatch escape false (pattern.length + 1) str pattern = some .likeTrue

def stringIlike (str pattern : List UInt8) (escape : UInt8) : Bool :=
  stringLikeMatch escape true (pattern.length + 1) str pattern = some .likeTrue

-- ======== the patterns

/-- What a well-formed pattern stands for. A set ends at the first `]`, and
no character in it is special. -/
inductive Denotes (escape : UInt8) : List UInt8 → List (Wildcard.Item UInt8) → Prop
  | nil : Denotes escape [] []
  | escaped {c p items} (hp : Denotes escape p items) :
      Denotes escape (escape :: c :: p) (.lit c :: items)
  | any {p items} (hp : Denotes escape p items) :
      Denotes escape (percent :: p) (.any :: items)
  | one {p items} (hp : Denotes escape p items) :
      Denotes escape (underscore :: p) (.one :: items)
  | set {cs p items} (hcs : closeSet ∉ cs) (hp : Denotes escape p items) :
      Denotes escape (openSet :: (cs ++ closeSet :: p)) (.set cs :: items)
  | lit {c p items} (hesc : c ≠ escape) (hc : c ∉ [percent, underscore, openSet])
      (hp : Denotes escape p items) : Denotes escape (c :: p) (.lit c :: items)

/-- An escape character that is no wildcard itself. -/
def PlainEscape (escape : UInt8) : Prop :=
  escape ∉ [percent, underscore, openSet]

instance (escape : UInt8) : Decidable (PlainEscape escape) :=
  inferInstanceAs (Decidable (escape ∉ [percent, underscore, openSet]))


def blank : UInt8 := ' '.toUInt8
def dot : UInt8 := '.'.toUInt8
def star : UInt8 := '*'.toUInt8
def plus : UInt8 := '+'.toUInt8

-- ======== simple patterns

inductive PatternFault
  /-- A place outside the string is read. -/
  | undefined
  | runtimeError (what : String)
deriving DecidableEq, Repr

def checkLikeExpr (likeStr : List UInt8) (escapeChar : UInt8) : Except PatternFault Unit :=
  match likeStr.getLast? with
  | none => .error .undefined
  | some c =>
    if c = escapeChar then
      .error (.runtimeError "LIKE pattern must not end with escape character.")
    else .ok ()

/-- Whether the last `%` is escaped. -/
def lastEscaped (likeStr : List UInt8) (escapeChar : UInt8) : Except PatternFault Bool :=
  if likeStr[likeStr.length - 2]? = some escapeChar then
    if likeStr.length < 3 then .error .undefined
    else .ok (likeStr[likeStr.length - 3]? ≠ some escapeChar)
  else .ok false

/-- Whether a control character at a place between the two ends has an
escape character before it. -/
def guardedAt (likeStr : List UInt8) (escapeChar : UInt8) (i : Nat) : Bool :=
  likeStr[i]? ∉ [some percent, some underscore, some openSet, some closeSet] ||
    likeStr[i - 1]? = some escapeChar

def testIsSimpleExpr (likeStr : List UInt8) (escapeChar : UInt8) : Except PatternFault Bool :=
  if likeStr.length < 2 ∨ likeStr[0]? ≠ some percent ∨
      likeStr[likeStr.length - 1]? ≠ some percent then
    .ok false
  else do
    if ← lastEscaped likeStr escapeChar then
      return false
    return (List.range' 1 (likeStr.length - 2)).all (guardedAt likeStr escapeChar)

/-- One character of the erasure, which has the new string and the
character before. -/
def eraseStep (escapeChar : UInt8) : List UInt8 × UInt8 → UInt8 → List UInt8 × UInt8
  | (newStr, prevChar), curChar =>
    if (curChar = percent ∨ curChar = escapeChar) ∧ prevChar ≠ escapeChar then
      (newStr, curChar)
    else (newStr ++ [curChar], curChar)

def eraseCntlChars (likeStr : List UInt8) (escapeChar : UInt8) : List UInt8 :=
  (likeStr.foldl (eraseStep escapeChar) ([], 0)).1

/-- Whether the pattern stands at the front of what is left of a string. -/
def matchesFront (isIlike : Bool) : List UInt8 → List UInt8 → Bool
  | _, [] => true
  | [], _ :: _ => false
  | c :: s, q :: p => sameChar isIlike c q && matchesFront isIlike s p

def searchSimple (isIlike : Bool) (str pattern : List UInt8) : Bool :=
  (List.range (str.length + 1 - pattern.length)).any fun i =>
    matchesFront isIlike (str.drop i) pattern

def stringLikeSimple (str pattern : List UInt8) : Bool :=
  searchSimple false str pattern

def stringIlikeSimple (str pattern : List UInt8) : Bool :=
  searchSimple true str pattern

-- ======== regular expressions

def isalnum (c : UInt8) : Bool :=
  ('0'.toUInt8 ≤ c ∧ c ≤ '9'.toUInt8) ∨ ('A'.toUInt8 ≤ c ∧ c ≤ 'Z'.toUInt8) ∨
    ('a'.toUInt8 ≤ c ∧ c ≤ 'z'.toUInt8)

/-- What the translation has when it comes to a character. -/
structure Translation where
  likeStr : List UInt8
  prevChar : UInt8
  prevPrevChar : UInt8

/-- One character of the translation, or `none` where it gives up. -/
def Translation.step (escapeChar : UInt8) (t : Translation) (curChar : UInt8) :
    Option Translation :=
  if t.prevChar = escapeChar ∨ isalnum curChar ∨ curChar = blank ∨ curChar = dot then
    some {
      likeStr := t.likeStr ++ [if curChar = dot then underscore else curChar]
      prevChar := curChar
      prevPrevChar := t.prevChar }
  else if t.prevChar = dot ∧ t.prevPrevChar ≠ escapeChar ∧
      (curChar = star ∨ curChar = plus) then
    some {
      likeStr := (if curChar = star then t.likeStr.dropLast else t.likeStr) ++ [percent]
      prevChar := curChar
      prevPrevChar := t.prevChar }
  else none

/-- The LIKE pattern that takes the place of the expression; without one the
expression is left as it is. -/
def translateToLikePattern (patternStr : List UInt8) (escapeChar : UInt8) :
    Option (List UInt8) :=
  (patternStr.foldlM (Translation.step escapeChar) ⟨[], 0, 0⟩).map Translation.likeStr

-- What a regular expression says, for the part of the language that has a
-- meaning here. The other metacharacters have none.

def metachars : List UInt8 :=
  ['*', '+', '?', '(', ')', '[', ']', '{', '}', '|', '^', '$'].map Char.toUInt8

/-- The items that a regular expression stands for: `.` any character, `.*`
any sequence, `.+` any but the empty one, an escaped or an ordinary
character itself. -/
def regexpItems (escapeChar : UInt8) : List UInt8 → Option (List (Wildcard.Item UInt8))
  | [] => some []
  | c :: p =>
    if c = escapeChar then
      match p with
      | [] => none
      | d :: p => (regexpItems escapeChar p).map (.lit d :: ·)
    else if c = dot then
      match p with
      | [] => some [.one]
      | q :: p' =>
        if q ≠ escapeChar ∧ q = star then (regexpItems escapeChar p').map (.any :: ·)
        else if q ≠ escapeChar ∧ q = plus then
          (regexpItems escapeChar p').map (.one :: .any :: ·)
        else (regexpItems escapeChar (q :: p')).map (.one :: ·)
    else if c ∈ metachars then none
    else (regexpItems escapeChar p).map (.lit c :: ·)

/-- The translated pattern matches what the expression matches, on every
string. -/
def TranslationExact (escapeChar : UInt8) (patternStr : List UInt8) : Prop :=
  ∀ likeStr, translateToLikePattern patternStr escapeChar = some likeStr →
    ∃ items, regexpItems escapeChar patternStr = some items ∧
      ∀ str, stringLike str likeStr escapeChar = true ↔ str ∈ Wildcard.language items

end Compass.Like
