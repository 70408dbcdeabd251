/-
The proxy of a string dictionary (StringDictionary/StringDictionaryProxy.cpp):
a query's view of a dictionary up to a generation, with strings of its own.

A string that is in the dictionary below the generation has its id there;
any other string gets a negative id, in two maps of the proxy, whether it
has since been added to the dictionary or not. The searches ask the
dictionary for the ids below the generation, and then go through the
strings of the proxy.

`std::string::compare`, which orders the proxy's own strings, is the
lexicographic order of the bytes, a prefix first. The dictionary orders its
strings by `StringCompare`.

What `getCompare` should return (StringDictionary/StringDictionary.cpp).

The ids of all strings that `StringCompare` puts on the right side of the
pattern, each once. While `sorted_cache` is incomplete, `=` and `<>` go
through all strings one by one; otherwise the ids are a part of the sorted
cache. The caches are as any calls before have left them.
-/
import Compass.Lib.StdMap
import Compass.Dict.Search

namespace Compass.Dict

/-- How a call on a proxy fails to return. -/
inductive ProxyFault
  | fault (f : Fault)
  | unsupportedOperator
deriving DecidableEq, Repr

structure StringDictionaryProxy where
  stringDict : SearchState
  generation : Nat
  /-- `transient_int_to_str_`. -/
  transientIntToStr : List (Int × Str)
  /-- `transient_str_to_int_`. -/
  transientStrToInt : List (Str × Int)

/-- `StringDictionary::getIdOfString`. -/
def SearchState.getIdOfString (s : SearchState) (str : Str) : Int :=
  if s.strings.contains str then s.strings.idxOf str else invalidStrId

/-- `truncate_to_generation`. -/
def truncateToGeneration (id : Int) (generation : Nat) : Int :=
  if id = invalidStrId then id
  else if generation ≤ id.toNat then invalidStrId else id

/-- `do_compare`. -/
def doCompare (str pattern : Str) : CompOperator → Except ProxyFault Bool
  | .lt => .ok (str < pattern)
  | .le => .ok (str ≤ pattern)
  | .eq => .ok (str = pattern)
  | .gt => .ok (pattern < str)
  | .ge => .ok (pattern ≤ str)
  | .ne => .ok (str ≠ pattern)
  | .unsupported => .error .unsupportedOperator

namespace StringDictionaryProxy

/-- A proxy without strings of its own. -/
def ofDictionary (stringDict : SearchState) (generation : Nat) : StringDictionaryProxy :=
  ⟨stringDict, generation, [], []⟩

/-- The id that the dictionary has for a string, below the generation. -/
def persistentId (p : StringDictionaryProxy) (str : Str) : Int :=
  truncateToGeneration (p.stringDict.getIdOfString str) p.generation

def getOrAddTransient (p : StringDictionaryProxy) (str : Str) :
    Except ProxyFault (StringDictionaryProxy × Int) :=
  if p.persistentId str ≠ invalidStrId then .ok (p, p.persistentId str)
  else
    match StdMap.find? p.transientStrToInt str with
    | some id => .ok (p, id)
    | none =>
      -- make sure it's not INVALID_STR_ID
      let id := toInt32 (-(p.transientStrToInt.length + 2))
      match StdMap.find? p.transientIntToStr id with
      | some _ => .error (.fault .check)
      | none => .ok ({ p with
          transientStrToInt := StdMap.set p.transientStrToInt str id
          transientIntToStr := StdMap.set p.transientIntToStr id str }, id)

def getIdOfString (p : StringDictionaryProxy) (str : Str) : Int :=
  if p.persistentId str ≠ invalidStrId then p.persistentId str
  else (StdMap.find? p.transientStrToInt str).getD invalidStrId

def getString (p : StringDictionaryProxy) (id : Int) : Except ProxyFault Str :=
  if 0 ≤ id then
    match p.stringDict.strings[id.toNat]? with
    | some str => .ok str
    | none => .error (.fault .check)
  else
    match StdMap.find? p.transientIntToStr id with
    | some str => .ok str
    | none => .error (.fault .check)

/-- The ids of the proxy's own strings that match, in the order of the
map. -/
def transientIds (isMatch : Str → Except ProxyFault Bool) :
    List (Int × Str) → Except ProxyFault (List Int)
  | [] => .ok []
  | kv :: kvs => do
      let found ← isMatch kv.2
      let ids ← transientIds isMatch kvs
      return if found then kv.1 :: ids else ids

/-- A search of the dictionary, and then of the proxy's own strings. -/
def searchBoth (p : StringDictionaryProxy) (r : Except Fault (SearchState × List Nat))
    (isMatch : Str → Except ProxyFault Bool) :
    Except ProxyFault (StringDictionaryProxy × List Int) :=
  match r with
  | .error f => .error (.fault f)
  | .ok (stringDict, result) => do
      let ids ← transientIds isMatch p.transientIntToStr
      return ({ p with stringDict }, result.map Int.ofNat ++ ids)

def getLike (m : Matching) (p : StringDictionaryProxy) (key : LikeKey) :
    Except ProxyFault (StringDictionaryProxy × List Int) :=
  p.searchBoth (p.stringDict.getLike m key p.generation) fun str => .ok (m.isLike str key)

def getCompare (m : Matching) (p : StringDictionaryProxy) (pattern : Str) (op : CompOperator) :
    Except ProxyFault (StringDictionaryProxy × List Int) :=
  p.searchBoth (p.stringDict.getCompare m pattern op p.generation) fun str =>
    doCompare str pattern op

end StringDictionaryProxy

-- ======== runs

/-- Calls on a proxy, and additions to its dictionary. -/
inductive ProxyCall
  | addString (str : Str)
  | getOrAddTransient (str : Str)
  | getIdOfString (str : Str)
  | getString (id : Int)
  | getLike (key : LikeKey)
  | getCompare (pattern : Str) (op : CompOperator)
deriving DecidableEq

inductive ProxyAnswer
  | id (stringId : Int)
  | str (str : Str)
  | ids (stringIds : List Int)
deriving DecidableEq

open StringDictionaryProxy in
def ProxyCall.run (m : Matching) (p : StringDictionaryProxy) :
    ProxyCall → Except ProxyFault (StringDictionaryProxy × ProxyAnswer)
  | .addString str =>
    match p.stringDict.getOrAdd str with
    | .ok (stringDict, id) => .ok ({ p with stringDict }, .id id)
    | .error f => .error (.fault f)
  | .getOrAddTransient str => (p.getOrAddTransient str).map fun r => (r.1, .id r.2)
  | .getIdOfString str => .ok (p, .id (p.getIdOfString str))
  | .getString id => (p.getString id).map fun str => (p, .str str)
  | .getLike key => (p.getLike m key).map fun r => (r.1, .ids r.2)
  | .getCompare pattern op => (p.getCompare m pattern op).map fun r => (r.1, .ids r.2)

/-- The ids that strings have received from the proxy. -/
def ProxyCall.received : ProxyCall → ProxyAnswer → List (Str × Int)
  | .getOrAddTransient str, .id id => [(str, id)]
  | .getIdOfString str, .id id => if id = invalidStrId then [] else [(str, id)]
  | _, _ => []

/-- `std::sort` by a comparison of keys. -/
def Matching.Sorts (m : Matching) : Prop :=
  ∀ (key : Nat → Str) (lt : Nat → Nat → Bool) (ids : List Nat),
    (∀ a ∈ ids, ∀ b ∈ ids, lt a b = true ↔ key a < key b) →
    (m.sort lt ids).Pairwise fun a b => key a ≤ key b

-- ======== conditions

/-- One string is the other one followed by a zero byte, and perhaps more:
`StringCompare` takes them for equal or for the wrong order. -/
def ZeroTwins (a b : Str) : Prop :=
  ∃ rest, a = b ++ 0 :: rest ∨ b = a ++ 0 :: rest

/-- A comparison that comes out right: of a dictionary without strings;
for equality while the strings are not all sorted; else among strings
without zero twins, none of them a match at or above the generation, where
`<=` has a string that is not above the pattern. -/
def CompareSafe (p : StringDictionaryProxy) (pattern : Str) (op : CompOperator) : Prop :=
  p.stringDict.strings = []
    ∨ (op = .eq ∧ p.stringDict.sortedCache.length < p.stringDict.strings.length)
    ∨ (¬ (op = .ne ∧ p.stringDict.sortedCache.length < p.stringDict.strings.length)
      ∧ (∀ a ∈ pattern :: p.stringDict.strings, ∀ b ∈ pattern :: p.stringDict.strings,
          ¬ ZeroTwins a b)
      ∧ (∀ id str, p.stringDict.strings[id]? = some str →
          doCompare str pattern op = .ok true → id < p.generation)
      ∧ (op = .le → ∃ str ∈ p.stringDict.strings, str ≤ pattern))

/-- Every id still fits, and every comparison is of that kind. -/
def ProxyCall.Safe (p : StringDictionaryProxy) : ProxyCall → Prop
  | .getOrAddTransient _ => p.transientStrToInt.length + 2 ≤ 2 ^ 31
  | .getCompare pattern op => op ≠ .unsupported ∧ CompareSafe p pattern op
  | _ => True

/-- The states of the runs of such calls, with the ids received. -/
inductive ProxyReached (m : Matching) (start : StringDictionaryProxy) :
    StringDictionaryProxy → List (Str × Int) → Prop
  | start : ProxyReached m start start []
  | call {p p' : StringDictionaryProxy} {given : List (Str × Int)} {c : ProxyCall}
      {a : ProxyAnswer} : ProxyReached m start p given → c.Safe p →
      c.run m p = .ok (p', a) → ProxyReached m start p' (c.received a ++ given)

-- ======== the statement

/-- The proxy has the string under the id. -/
def StringDictionaryProxy.Holds (p : StringDictionaryProxy) (id : Int) (str : Str) : Prop :=
  (∃ n : Nat, id = n ∧ n < p.generation ∧ p.stringDict.strings[n]? = some str)
    ∨ (id, str) ∈ p.transientIntToStr

/-- Just the ids whose strings match. -/
def StringDictionaryProxy.Matched (p : StringDictionaryProxy) (isMatch : Str → Prop)
    (ids : List Int) : Prop :=
  ∀ id, id ∈ ids ↔ ∃ str, p.Holds id str ∧ isMatch str

structure TransientConsistent (m : Matching) (p : StringDictionaryProxy)
    (given : List (Str × Int)) : Prop where
  same : ∀ x ∈ given, ∀ y ∈ given, x.1 = y.1 ↔ x.2 = y.2
  /-- A later call gives the same id again. -/
  again : ∀ x ∈ given, p.getIdOfString x.1 = x.2 ∧ p.getOrAddTransient x.1 = .ok (p, x.2)
  getString : ∀ x ∈ given, p.getString x.2 = .ok x.1
  next : ∀ str, p.transientStrToInt.length + 2 ≤ 2 ^ 31 → ∃ p' id,
    p.getOrAddTransient str = .ok (p', id) ∧ p'.getString id = .ok str
  /-- An id is one of the dictionary below the generation, or below `-1`. -/
  range : ∀ x ∈ given, (0 ≤ x.2 ∧ x.2 < p.generation) ∨ x.2 < -1
  like : ∀ key, ∃ p' ids, p.getLike m key = .ok (p', ids)
    ∧ p.Matched (fun str => m.isLike str key = true) ids
  compare : ∀ pattern op, op ≠ .unsupported → CompareSafe p pattern op → ∃ p' ids,
    p.getCompare m pattern op = .ok (p', ids)
      ∧ p.Matched (fun str => doCompare str pattern op = .ok true) ids


/-- What an operator says of the value of `StringCompare`. -/
def CompOperator.holds : CompOperator → Int → Bool
  | .lt, cmp => cmp < 0
  | .le, cmp => cmp ≤ 0
  | .gt, cmp => 0 < cmp
  | .ge, cmp => 0 ≤ cmp
  | .eq, cmp => cmp = 0
  | .ne, cmp => cmp ≠ 0
  | .unsupported, _ => false

/-- The states of a dictionary after any calls that return. -/
inductive Consulted (m : Matching) : SearchState → Prop
  | start {strings : List Str} (hnodup : strings.Nodup) : Consulted m (.ofStrings strings)
  | call {s s' : SearchState} {c : SearchCall} {a : SearchAnswer} (hs : Consulted m s)
      (hrun : c.run m s = .ok (s', a)) : Consulted m s'

/-- No two of the strings are zero twins. -/
def NoTwins (strs : List Str) : Prop :=
  ∀ a ∈ strs, ∀ b ∈ strs, ¬ ZeroTwins a b

namespace SearchState

variable (m : Matching) (s : SearchState)

end SearchState

end Compass.Dict
