/-
The searches of the string dictionary and their caches
(StringDictionary/StringDictionary.cpp).

The storage is the list of its strings here, by id; the table and the
files under it are in StringDictionary.lean, and `Proofs/Search.lean` says
how they hold such a list. Searches remember what they found: `like_cache_`
and `regex_cache_` by pattern, `equal_cache_` and `compare_cache_` by
string, and `strings_cache_` all strings. A new string empties all but the
last (`invalidateInvertedIndex`).

`sorted_cache` is not emptied but extended; it holds the ids in the order
of their strings, once a comparison has been asked for. How a pattern
matches and how `std::sort` orders are parameters.
-/
import Compass.Dict.StringDictionary

namespace Compass.Dict

-- ======== patterns

/-- What a LIKE search is remembered by. -/
structure LikeKey where
  pattern : Str
  icase : Bool
  isSimple : Bool
  escape : UInt8
deriving DecidableEq, Repr

/-- What a regular expression search is remembered by. -/
structure RegexKey where
  pattern : Str
  escape : UInt8
deriving DecidableEq, Repr

/-- Matching, sorting by a comparison, and the number of threads. -/
structure Matching where
  isLike : Str → LikeKey → Bool
  isRegexpLike : Str → RegexKey → Bool
  sort : (Nat → Nat → Bool) → List Nat → List Nat
  sort_perm : ∀ lt ids, (sort lt ids).Perm ids
  cpuThreads : Nat
  cpuThreads_pos : 0 < cpuThreads

/-- `StringCompare`. -/
def stringCompare : Str → Str → Int
  | a :: as, b :: bs => if a = b then stringCompare as bs else a.toNat - b.toNat
  | a :: _, [] => a.toNat
  | [], b :: _ => -b.toNat
  | [], [] => 0

def stringLt (lhs rhs : Str) : Bool :=
  stringCompare lhs rhs < 0

/-- The values of `comp_operator`. -/
inductive CompOperator
  | lt | le | gt | ge | eq | ne | unsupported
deriving DecidableEq, Repr

/-- `compare_cache_value_t`. -/
structure CompareCacheValue where
  index : Nat
  diff : Int
deriving DecidableEq, Repr

/-- The strings by id, and the caches of the searches. -/
structure SearchState where
  strings : List Str
  sortedCache : List Nat
  likeCache : LikeKey → Option (List Nat)
  regexCache : RegexKey → Option (List Nat)
  equalCache : Str → Option Nat
  compareCache : Str → Option CompareCacheValue
  stringsCache : Option (List Str)

namespace SearchState

/-- No search has been made. -/
def ofStrings (strings : List Str) : SearchState :=
  ⟨strings, [], fun _ => none, fun _ => none, fun _ => none, fun _ => none, none⟩

/-- The same dictionary with its caches empty. -/
def clear (s : SearchState) : SearchState :=
  { ofStrings s.strings with sortedCache := s.sortedCache }

-- ======== strings

def invalidateInvertedIndex (s : SearchState) : SearchState :=
  { s with
    likeCache := fun _ => none
    regexCache := fun _ => none
    equalCache := fun _ => none
    compareCache := fun _ => none }

def getOrAdd (s : SearchState) (str : Str) : Except Fault (SearchState × Int) :=
  if str.length = 0 then .ok (s, nullStrId)
  else if str.length > maxStrlen then .error .check
  else if str ∈ s.strings then .ok (s, s.strings.idxOf str)
  else .ok (invalidateInvertedIndex { s with strings := s.strings ++ [str] }, s.strings.length)

-- ======== patterns

/-- The ids that one worker visits. -/
def workerIds (workerCount generation workerIdx : Nat) : List Nat :=
  List.range' workerIdx ((generation + workerCount - 1 - workerIdx) / workerCount) workerCount

/-- The ids of the strings that match, from all workers. -/
def search (workerCount : Nat) (strings : List Str) (isMatch : Str → Bool) (generation : Nat) :
    Except Fault (List Nat) :=
  if strings.length < generation then .error .check
  else .ok ((List.range workerCount).flatMap fun workerIdx =>
    (workerIds workerCount generation workerIdx).filter fun id => strings[id]?.any isMatch)

def getLike (m : Matching) (s : SearchState) (key : LikeKey) (generation : Nat) :
    Except Fault (SearchState × List Nat) :=
  match s.likeCache key with
  | some ids => .ok (s, ids)
  | none =>
    match search m.cpuThreads s.strings (m.isLike · key) generation with
    | .error e => .error e
    | .ok ids => .ok ({ s with likeCache := Function.update s.likeCache key (some ids) }, ids)

def getRegexpLike (m : Matching) (s : SearchState) (key : RegexKey) (generation : Nat) :
    Except Fault (SearchState × List Nat) :=
  match s.regexCache key with
  | some ids => .ok (s, ids)
  | none =>
    match search m.cpuThreads s.strings (m.isRegexpLike · key) generation with
    | .error e => .error e
    | .ok ids => .ok ({ s with regexCache := Function.update s.regexCache key (some ids) }, ids)

-- ======== comparisons

/-- The ids up to `curSize`, that one included, but one. -/
def otherIds (curSize eqId : Nat) : List Nat :=
  (List.range (curSize + 1)).filter (· ≠ eqId)

/-- `getEquals`, for `=` and `<>`. -/
def getEquals (m : Matching) (s : SearchState) (pattern : Str) (op : CompOperator)
    (generation : Nat) : Except Fault (SearchState × List Nat) :=
  match s.equalCache pattern with
  | some eqId =>
    if op = .eq then .ok (s, [eqId]) else .ok (s, otherIds s.strings.length eqId)
  | none =>
    match search m.cpuThreads s.strings (· = pattern) generation with
    | .error e => .error e
    | .ok ids =>
      let s' := match ids with
        | [] => s
        | id :: _ => { s with equalCache := Function.update s.equalCache pattern (some id) }
      let eqId := ids.head?.getD (maxStrlen + 1)
      .ok (s', if op = .ne then ids ++ otherIds s.strings.length eqId else ids)

/-- `string_lt` of two stored strings. -/
def idLt (strings : List Str) (a b : Nat) : Bool :=
  stringLt (strings[a]?.getD []) (strings[b]?.getD [])

/-- `mergeSortedCache`. -/
def mergeSortedCache (strings : List Str) : List Nat → List Nat → List Nat
  | [], s => s
  | t, [] => t
  | t :: ts, s :: ss =>
    if idLt strings t s then t :: mergeSortedCache strings ts (s :: ss)
    else s :: mergeSortedCache strings (t :: ts) ss
  termination_by t s => t.length + s.length

/-- `buildSortedCache`. -/
def buildSortedCache (m : Matching) (s : SearchState) : SearchState :=
  let size := s.sortedCache.length
  let temp := m.sort (idLt s.strings) (List.range' size (s.strings.length - size))
  { s with sortedCache := mergeSortedCache s.strings temp s.sortedCache }

/-- `StringCompare` of the string at a place of the sorted ids with a
pattern. -/
def compareAt (strings : List Str) (sortedCache : List Nat) (pattern : Str) (i : Nat) :
    Except Fault Int :=
  match sortedCache[i]?.bind (strings[·]?) with
  | some str => .ok (stringCompare str pattern)
  | none => .error .bounds

/-- The loop of `binary_search_cache`: the place of the pattern, or where
it ended. -/
def binarySearch (strings : List Str) (sortedCache : List Nat) (pattern : Str) :
    Nat → Int → Int → Except Fault (Option Nat × Int)
  | 0, _, _ => .error .endless
  | fuel + 1, start, stop =>
    if start < stop then
      let mid := start + (stop - start) / 2
      match compareAt strings sortedCache pattern mid.toNat with
      | .error e => .error e
      | .ok cmp =>
        if cmp = 0 then .ok (some mid.toNat, start)
        else if cmp < 0 then binarySearch strings sortedCache pattern fuel (mid + 1) stop
        else binarySearch strings sortedCache pattern fuel start (mid - 1)
    else .ok (none, start)

/-- `binary_search_cache`. -/
def binarySearchCache (strings : List Str) (sortedCache : List Nat) (pattern : Str) :
    Except Fault CompareCacheValue := do
  let (found, start) ← binarySearch strings sortedCache pattern (strings.length + 1) 0
    (strings.length - 1)
  match found with
  | some mid => return ⟨mid, 0⟩
  | none =>
    let cmp ← compareAt strings sortedCache pattern start.toNat
    if start > 0 ∧ cmp > 0 then
      let lCmp ← compareAt strings sortedCache pattern (start.toNat - 1)
      if lCmp < 0 then return ⟨start.toNat - 1, lCmp⟩
    return ⟨start.toNat, cmp⟩

/-- The end of `getCompare`: the ids on one side of the index. -/
def compareIds (sortedCache : List Nat) (op : CompOperator) (v : CompareCacheValue) :
    List Nat :=
  let idx := if v.diff = 0 then v.index
    else if v.index = 0 ∧ v.diff > 0 then v.index
    else v.index + 1
  match op with
  | .lt => sortedCache.take idx
  -- the test for the first index compares a pointer, and is never met
  | .le => sortedCache.take (v.index + 1)
  | .gt =>
    sortedCache.drop (if v.index = 0 ∧ v.diff > 0 then v.index else v.index + 1)
  | .ge => sortedCache.drop idx
  | .eq => if v.diff = 0 then [sortedCache[v.index]?.getD 0] else []
  | .ne =>
    if v.diff = 0 then sortedCache.take v.index ++ sortedCache.drop (v.index + 1)
    else (List.replicate sortedCache.length sortedCache).flatten
  | .unsupported => []

/-- The part of `getCompare` over the sorted ids. -/
def compareSorted (s : SearchState) (pattern : Str) (op : CompOperator) :
    Except Fault (SearchState × List Nat) :=
  match s.compareCache pattern with
  | some v => .ok (s, compareIds s.sortedCache op v)
  | none =>
    match binarySearchCache s.strings s.sortedCache pattern with
    | .error e => .error e
    | .ok v =>
      .ok ({ s with compareCache := Function.update s.compareCache pattern (some v) },
        compareIds s.sortedCache op v)

def getCompare (m : Matching) (s : SearchState) (pattern : Str) (op : CompOperator)
    (generation : Nat) : Except Fault (SearchState × List Nat) :=
  if s.strings.length = 0 then .ok (s, [])
  else if s.sortedCache.length < s.strings.length then
    if op = .eq ∨ op = .ne then getEquals m s pattern op generation
    else compareSorted (buildSortedCache m s) pattern op
  else compareSorted s pattern op

/-- `copyStrings`: workers copy ranges of ids, which are put together in
order. -/
def copyStrings (s : SearchState) : SearchState × List Str :=
  match s.stringsCache with
  | some strs => (s, strs)
  | none => ({ s with stringsCache := some s.strings }, s.strings)

end SearchState

-- ======== runs

inductive SearchCall
  | getOrAdd (str : Str)
  | getLike (key : LikeKey) (generation : Nat)
  | getRegexpLike (key : RegexKey) (generation : Nat)
  | getCompare (pattern : Str) (op : CompOperator) (generation : Nat)
  | copyStrings
deriving DecidableEq

inductive SearchAnswer
  | id (stringId : Int)
  | ids (stringIds : List Nat)
  | strings (strs : List Str)
deriving DecidableEq

/-- One call. -/
def SearchCall.run (m : Matching) (s : SearchState) :
    SearchCall → Except Fault (SearchState × SearchAnswer)
  | .getOrAdd str => (s.getOrAdd str).map fun r => (r.1, .id r.2)
  | .getLike key generation => (s.getLike m key generation).map fun r => (r.1, .ids r.2)
  | .getRegexpLike key generation =>
    (s.getRegexpLike m key generation).map fun r => (r.1, .ids r.2)
  | .getCompare pattern op generation =>
    (s.getCompare m pattern op generation).map fun r => (r.1, .ids r.2)
  | .copyStrings => .ok (s.copyStrings.1, .strings s.copyStrings.2)

/-- The generation is not above the number of strings. -/
def SearchCall.Valid (s : SearchState) : SearchCall → Prop
  | .getLike _ generation | .getRegexpLike _ generation | .getCompare _ _ generation =>
    generation ≤ s.strings.length
  | _ => True

/-- No string with an id between two generations matches. -/
def SameMatches (s : SearchState) (isMatch : Str → Bool) (g g' : Nat) : Prop :=
  ∀ id, min g g' ≤ id → id < max g g' → s.strings[id]?.any isMatch = false

/-- What the caches hold does not depend on what they are not keyed by. A
pattern search was made before, since the last new string, only with
generations between which no string matches. `=` is not answered from
`equal_cache_` with an id at or above the generation, and `<>` not at all,
unless the id is the one that stands for none. Since `strings_cache_` was
filled, no string is new. -/
def SearchCall.Harmless (m : Matching) (s : SearchState) (asked : List SearchCall) :
    SearchCall → Prop
  | .getOrAdd _ => True
  | .getLike key g => ∀ g', .getLike key g' ∈ asked → SameMatches s (m.isLike · key) g g'
  | .getRegexpLike key g =>
    ∀ g', .getRegexpLike key g' ∈ asked → SameMatches s (m.isRegexpLike · key) g g'
  | .getCompare pattern op g =>
    s.sortedCache.length < s.strings.length → ∀ eqId, s.equalCache pattern = some eqId →
      (op = .eq → eqId < g) ∧ (op = .ne → eqId = maxStrlen + 1 ∧ g ≤ eqId)
  | .copyStrings => ∀ strs, s.stringsCache = some strs → strs.length = s.strings.length

/-- A step of a run: the state, and the calls since the last new string. -/
inductive SearchStep (m : Matching) :
    SearchState × List SearchCall → SearchState × List SearchCall → Prop
  | call {s s' : SearchState} {asked : List SearchCall} {c : SearchCall} {a : SearchAnswer}
      (hvalid : c.Valid s) (hcaches : c.Harmless m s asked) (h : c.run m s = .ok (s', a)) :
      SearchStep m (s, asked)
        (s', if s'.strings.length = s.strings.length then c :: asked else [])

-- ======== the statement

/-- Exactly the ids below the generation whose strings match. -/
def Exactly (s : SearchState) (isMatch : Str → Bool) (generation : Nat) (ids : List Nat) :
    Prop :=
  ids.Nodup ∧ ∀ id, id ∈ ids ↔ id < generation ∧ s.strings[id]?.any isMatch = true

/-- A call that the caches do not change. -/
structure Faithful (m : Matching) (s : SearchState) (c : SearchCall) : Prop where
  same : (c.run m s).map Prod.snd = (c.run m s.clear).map Prod.snd
  like : ∀ key g, c = .getLike key g →
    ∃ s' ids, c.run m s = .ok (s', .ids ids) ∧ Exactly s (m.isLike · key) g ids
  regexp : ∀ key g, c = .getRegexpLike key g →
    ∃ s' ids, c.run m s = .ok (s', .ids ids) ∧ Exactly s (m.isRegexpLike · key) g ids
  copy : c = .copyStrings → ∃ s', c.run m s = .ok (s', .strings s.strings)

end Compass.Dict
