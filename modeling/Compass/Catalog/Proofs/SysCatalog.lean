/-
What `updatePrivileges` computes.

One group role puts its entries on top of what is there, an entry that is
not valid counting for nothing (`find?_updateFrom`); all roles of the user
together put the union of theirs (`find?_updateAll`). So where each key of
the user is in one of the roles, nothing has to be erased and the entries
are the unions (`updatePrivileges_spec`).

The invariant of the users' and the group roles.

The commands keep `Inv`: the lists and maps are sets, memberships mirror
each other, and the entries of every user are the unions over the user's
roles. While a command is under way some users still have to be updated
(`Partial`). This module has the commands that only add to a role or to
its members, or take bits from it; none of them takes a key from a user.
-/
import Compass.Catalog.SysCatalog

namespace Compass.Catalog

open List
open StdMap

-- ======== unions

theorem union_comm (p q : AccessPrivileges) : p.union q = q.union p := by
  simp [AccessPrivileges.union, Bool.or_comm]

theorem union_assoc (p q r : AccessPrivileges) : (p.union q).union r = p.union (q.union r) := by
  simp [AccessPrivileges.union, Bool.or_assoc]

theorem union_self (p : AccessPrivileges) : p.union p = p := by
  simp [AccessPrivileges.union]

/-- The entry of a role for a key. -/
def entryAt (roles : Name → Option GroupRole) (name : Name) (key : DBObjectKey) :
    Option AccessPrivileges :=
  (roles name).bind fun role => StdMap.find? role.dbObjectMap key

theorem unionAt_cons (roles : Name → Option GroupRole) (name : Name) (names : List Name)
    (key : DBObjectKey) :
    unionAt roles (name :: names) key
      = unionOption (entryAt roles name key) (unionAt roles names key) := rfl

variable {roles : Name → Option GroupRole}
variable {key : DBObjectKey} {names : List Name}

theorem unionAt_congr {roles' : Name → Option GroupRole}
    (h : ∀ name ∈ names, entryAt roles name key = entryAt roles' name key) :
    unionAt roles names key = unionAt roles' names key := by
  induction names with
  | nil => rfl
  | cons name names ih =>
    rw [unionAt_cons, unionAt_cons, h name mem_cons_self,
      ih fun name hname => h name (mem_cons_of_mem _ hname)]

theorem unionAt_ne_none :
    unionAt roles names key ≠ none ↔ ∃ name ∈ names, entryAt roles name key ≠ none := by
  induction names with
  | nil => simp [unionAt]
  | cons name names ih =>
    rw [unionAt_cons, exists_mem_cons_iff, ← ih]
    cases entryAt roles name key with
    | none => simp [unionOption]
    | some p =>
      cases unionAt roles names key with
      | none | some q => simp [unionOption]

/-- The union has what each of the roles has. -/
theorem unionAt_absorbs {name : Name} {p : AccessPrivileges} (hname : name ∈ names)
    (hp : entryAt roles name key = some p) :
    ∃ q, unionAt roles names key = some q ∧ q.union p = q := by
  induction names with
  | nil => cases hname
  | cons name' names ih =>
    rw [unionAt_cons]
    rcases mem_cons.mp hname with rfl | hname
    · rw [hp]
      cases unionAt roles names key with
      | none => exact ⟨p, rfl, union_self p⟩
      | some q =>
        refine ⟨p.union q, rfl, ?_⟩
        rw [union_comm p q, union_assoc, union_self]
    · obtain ⟨q, hq, hqp⟩ := ih hname
      rw [hq]
      cases entryAt roles name' key with
      | none => exact ⟨q, rfl, hqp⟩
      | some p' => exact ⟨p'.union q, rfl, by rw [union_assoc, hqp]⟩

-- ======== entries of one group role

/-- Privileges from a group role on top of an entry. -/
def merge (e : Option Entry) (p : Option AccessPrivileges) : Option Entry :=
  match p with
  | none => e
  | some p =>
    match e with
    | some e => some ⟨if e.privsValid then e.privs.union p else p, true⟩
    | none => some ⟨p, true⟩

theorem find?_updateEntry {m : List (DBObjectKey × Entry)} (h : (m.map Prod.fst).Nodup)
    (kv : DBObjectKey × AccessPrivileges) (key : DBObjectKey) :
    ((UserRole.updateEntry m kv).map Prod.fst).Nodup
      ∧ StdMap.find? (UserRole.updateEntry m kv) key
        = merge (StdMap.find? m key) (if key = kv.1 then some kv.2 else none) := by
  unfold UserRole.updateEntry
  cases hfind : StdMap.find? m kv.1 with
  | none =>
    refine ⟨nodup_set h _ _, ?_⟩
    rw [find?_set h]
    by_cases hk : key = kv.1
    · rw [if_pos hk, if_pos hk, hk, hfind]
      rfl
    · rw [if_neg hk, if_neg hk]
      rfl
  | some e =>
    dsimp only
    by_cases hv : e.privsValid = true
    · rw [if_pos hv]
      refine ⟨nodup_set h _ _, ?_⟩
      rw [find?_set h]
      by_cases hk : key = kv.1
      · rw [if_pos hk, if_pos hk, hk, hfind, merge, if_pos hv]
      · rw [if_neg hk, if_neg hk]
        rfl
    · rw [if_neg hv]
      refine ⟨nodup_set h _ _, ?_⟩
      rw [find?_set h]
      by_cases hk : key = kv.1
      · rw [if_pos hk, if_pos hk, hk, hfind, merge, if_neg hv]
      · rw [if_neg hk, if_neg hk]
        rfl

theorem find?_cons {β : Type} (kv : DBObjectKey × β) (m : List (DBObjectKey × β))
    (key : DBObjectKey) :
    StdMap.find? (kv :: m) key = if key = kv.1 then some kv.2 else StdMap.find? m key := by
  unfold StdMap.find?
  by_cases h : kv.1 = key
  · rw [if_pos h.symm]
    simp [h]
  · rw [if_neg (Ne.symm h)]
    simp [h]

/-- The entries of a list on top of those of the user. -/
theorem find?_foldl_updateEntry {kvs : List (DBObjectKey × AccessPrivileges)}
    (hkvs : (kvs.map Prod.fst).Nodup) (key : DBObjectKey) :
    ∀ {m : List (DBObjectKey × Entry)}, (m.map Prod.fst).Nodup →
      ((kvs.foldl UserRole.updateEntry m).map Prod.fst).Nodup
        ∧ StdMap.find? (kvs.foldl UserRole.updateEntry m) key
          = merge (StdMap.find? m key) (StdMap.find? kvs key) := by
  induction kvs with
  | nil => exact fun h => ⟨h, rfl⟩
  | cons kv kvs ih =>
    intro m h
    rw [map_cons, nodup_cons] at hkvs
    obtain ⟨hnodup, hfind⟩ := find?_updateEntry h kv key
    obtain ⟨hnodup', hfind'⟩ := ih hkvs.2 hnodup
    refine ⟨hnodup', hfind'.trans ?_⟩
    rw [hfind, find?_cons]
    by_cases hk : key = kv.1
    · -- the key does not come again
      have hrest : StdMap.find? kvs key = none := by
        cases hr : StdMap.find? kvs key with
        | none => rfl
        | some p =>
          rw [hk] at hr
          exact absurd (mem_map_of_mem (find?_eq_some hr)) hkvs.1
      rw [if_pos hk, if_pos hk, hrest]
      rfl
    · rw [if_neg hk, if_neg hk]
      rfl

-- ======== all group roles

/-- The roles of a user, gone through one after the other. -/
def updateAll (roles : Name → Option GroupRole) (names : List Name)
    (m : List (DBObjectKey × Entry)) : List (DBObjectKey × Entry) :=
  names.foldl
    (fun m name =>
      match roles name with
      | some role => UserRole.updateFrom m role
      | none => m) m

/-- On top of a valid entry, the union of the two. -/
theorem merge_merge (e : Option Entry) (p q : Option AccessPrivileges) :
    merge (merge e p) q = merge e (unionOption p q) := by
  cases p with
  | none => rfl
  | some p =>
    cases q with
    | none => rfl
    | some q =>
      cases e with
      | none => rfl
      | some e =>
        by_cases hv : e.privsValid = true
        · simp [merge, unionOption, hv, union_assoc]
        · simp [merge, unionOption, hv]

variable (hroles : ∀ name role, roles name = some role → (role.dbObjectMap.map Prod.fst).Nodup)
include hroles

theorem find?_updateAll (names : List Name) (key : DBObjectKey) :
    ∀ {m : List (DBObjectKey × Entry)}, (m.map Prod.fst).Nodup →
      ((updateAll roles names m).map Prod.fst).Nodup
        ∧ StdMap.find? (updateAll roles names m) key
          = merge (StdMap.find? m key) (unionAt roles names key) := by
  induction names with
  | nil => exact fun h => ⟨h, rfl⟩
  | cons name names ih =>
    intro m h
    rw [unionAt_cons, ← merge_merge]
    cases hrole : roles name with
    | none =>
      have hentry : entryAt roles name key = none := by rw [entryAt, hrole]; rfl
      rw [hentry]
      have hstep : updateAll roles (name :: names) m = updateAll roles names m := by
        rw [updateAll, foldl_cons, hrole]
        rfl
      rw [hstep]
      exact ih h
    | some role =>
      have hentry : entryAt roles name key = StdMap.find? role.dbObjectMap key := by
        rw [entryAt, hrole]
        rfl
      have hstep : updateAll roles (name :: names) m
          = updateAll roles names (UserRole.updateFrom m role) := by
        rw [updateAll, foldl_cons, hrole]
        rfl
      obtain ⟨hnodup, hfind⟩ := find?_foldl_updateEntry (hroles name role hrole) key h
      rw [hentry, ← hfind, hstep]
      exact ih hnodup

omit hroles in
theorem find?_unvalidated (m : List (DBObjectKey × Entry)) (key : DBObjectKey) :
    StdMap.find? (m.map fun kv => (kv.1, { kv.2 with privsValid := false })) key
      = (StdMap.find? m key).map fun e => { e with privsValid := false } := by
  induction m with
  | nil => rfl
  | cons kv m ih =>
    rw [map_cons, find?_cons, find?_cons, ih]
    split
    · rfl
    · rfl

/-- Where each key of the user is in one of the roles, the update is
defined, and the entries are the unions. -/
theorem updatePrivileges_spec {u : UserRole} (hu : (u.dbObjectMap.map Prod.fst).Nodup)
    (hheld : ∀ key, StdMap.find? u.dbObjectMap key ≠ none → unionAt roles u.groupRole key ≠ none) :
    ∃ u', u.updatePrivileges roles = some u' ∧ u'.groupRole = u.groupRole
      ∧ (u'.dbObjectMap.map Prod.fst).Nodup
      ∧ ∀ key, StdMap.find? u'.dbObjectMap key
        = (unionAt roles u.groupRole key).map fun p => ⟨p, true⟩ := by
  set m := u.dbObjectMap.map fun kv => (kv.1, { kv.2 with privsValid := false }) with hm
  have hnodup : (m.map Prod.fst).Nodup := by
    rw [hm, map_map]
    exact hu
  have hfind : ∀ key, StdMap.find? (updateAll roles u.groupRole m) key
      = (unionAt roles u.groupRole key).map fun p => ⟨p, true⟩ := by
    intro key
    rw [(find?_updateAll hroles u.groupRole key hnodup).2, hm, find?_unvalidated]
    cases hunion : unionAt roles u.groupRole key with
    | none =>
      have hnone : StdMap.find? u.dbObjectMap key = none := by
        by_contra hne
        exact hheld key hne hunion
      rw [hnone]
      rfl
    | some p =>
      cases StdMap.find? u.dbObjectMap key with
      | none | some e => rfl
  have hkeys := (find?_updateAll hroles u.groupRole ⟨0, 0, 0, 0⟩ hnodup).1
  refine ⟨{ u with dbObjectMap := updateAll roles u.groupRole m }, ?_, rfl, hkeys, hfind⟩
  have hvalid : (updateAll roles u.groupRole m).all (fun kv => kv.2.privsValid) = true := by
    rw [all_eq_true]
    intro kv hkv
    have hentry := hfind kv.1
    rw [find?_of_mem hkeys hkv] at hentry
    obtain ⟨p, -, hp⟩ := Option.map_eq_some_iff.mp hentry.symm
    rw [← hp]
  exact if_pos hvalid

end Compass.Catalog

namespace Compass.Catalog

open Outcome List Function
open SysCatalog StateAction

-- ======== the invariant

/-- The entries of a user are the unions over the user's roles. -/
def Cached (st : SysCatalog) (u : UserRole) : Prop :=
  ∀ key, StdMap.find? u.dbObjectMap key
    = (unionAt st.roleMap u.groupRole key).map fun p => ⟨p, true⟩

/-- Every key of a user is in one of the user's roles. -/
def Held (st : SysCatalog) (u : UserRole) : Prop :=
  ∀ key, StdMap.find? u.dbObjectMap key ≠ none → unionAt st.roleMap u.groupRole key ≠ none

variable {st : SysCatalog} {userId : Nat} {E : SysCatalog → Prop} {name : Name} {role : GroupRole}
variable {u : UserRole}

theorem Cached.held (h : Cached st u) : Held st u := by
  intro key hkey hnone
  rw [h key, hnone] at hkey
  exact hkey rfl

def HasRole (st : SysCatalog) (userId : Nat) (name : Name) : Prop :=
  ∃ u, st.userRoleMap userId = some u ∧ name ∈ u.groupRole

def HasMember (st : SysCatalog) (name : Name) (userId : Nat) : Prop :=
  ∃ role, st.roleMap name = some role ∧ userId ∈ role.userRole

/-- Keys and members are there once. -/
structure Sets (st : SysCatalog) : Prop where
  roleKeys : ∀ name role, st.roleMap name = some role → (role.dbObjectMap.map Prod.fst).Nodup
  roleUsers : ∀ name role, st.roleMap name = some role → role.userRole.Nodup
  userKeys : ∀ userId u, st.userRoleMap userId = some u → (u.dbObjectMap.map Prod.fst).Nodup
  userGroups : ∀ userId u, st.userRoleMap userId = some u → u.groupRole.Nodup

/-- All is well but for some users, who still have to be updated. -/
structure Partial (todo : List Nat) (st : SysCatalog) : Prop where
  sets : Sets st
  mirror : ∀ userId name, HasRole st userId name ↔ HasMember st name userId
  present : ∀ userId ∈ todo, ∃ u, st.userRoleMap userId = some u
  cached : ∀ userId u, st.userRoleMap userId = some u → userId ∉ todo → Cached st u
  held : ∀ userId u, st.userRoleMap userId = some u → userId ∈ todo → Held st u

abbrev Inv (st : SysCatalog) : Prop := Partial [] st

/-- The same users, group roles and memberships. -/
structure SameGroups (st st' : SysCatalog) : Prop where
  users : st'.users = st.users
  roleMap : st'.roleMap = st.roleMap
  groups : ∀ userId, (st'.userRoleMap userId).map UserRole.groupRole
    = (st.userRoleMap userId).map UserRole.groupRole

theorem SameGroups.refl (st : SysCatalog) : SameGroups st st := ⟨rfl, rfl, fun _ => rfl⟩

theorem SameGroups.trans {st₁ st₂ st₃ : SysCatalog} (h : SameGroups st₁ st₂)
    (h' : SameGroups st₂ st₃) : SameGroups st₁ st₃ :=
  ⟨h'.users.trans h.users, h'.roleMap.trans h.roleMap,
    fun userId => (h'.groups userId).trans (h.groups userId)⟩

-- ======== changing a user

@[simp]
theorem setUserRole_self (userId : Nat) (u : UserRole) (st : SysCatalog) :
    (st.setUserRole userId u).userRoleMap userId = some u :=
  update_self _ _ _

theorem setUserRole_of_ne {userId' : Nat} (h : userId' ≠ userId) (u : UserRole) (st : SysCatalog) :
    (st.setUserRole userId u).userRoleMap userId' = st.userRoleMap userId' :=
  update_of_ne h _ _

/-- A user's entries, put in place of the old ones. -/
theorem sets_setUserRole (h : Sets st) (hkeys : (u.dbObjectMap.map Prod.fst).Nodup)
    (hgroups : u.groupRole.Nodup) : Sets (st.setUserRole userId u) where
  roleKeys := h.roleKeys
  roleUsers := h.roleUsers
  userKeys userId' u' h' := by
    by_cases hid : userId' = userId
    · subst hid
      rw [setUserRole_self, Option.some.injEq] at h'
      rw [← h']
      exact hkeys
    · rw [setUserRole_of_ne hid] at h'
      exact h.userKeys userId' u' h'
  userGroups userId' u' h' := by
    by_cases hid : userId' = userId
    · subst hid
      rw [setUserRole_self, Option.some.injEq] at h'
      rw [← h']
      exact hgroups
    · rw [setUserRole_of_ne hid] at h'
      exact h.userGroups userId' u' h'

theorem hasRole_setUserRole {userId' : Nat} {u' : UserRole} (hu : st.userRoleMap userId = some u)
    (hgroups : u'.groupRole = u.groupRole) (name : Name) :
    HasRole (st.setUserRole userId u') userId' name ↔ HasRole st userId' name := by
  unfold HasRole
  by_cases hid : userId' = userId
  · subst hid
    rw [setUserRole_self, hu]
    simp [hgroups]
  · rw [setUserRole_of_ne hid]

/-- An update of one of the users that wait for it. -/
theorem updateUser_meets {todo : List Nat} (h : Partial (userId :: todo) st) :
    (SysCatalog.updateUser userId st).Meets
      (fun _ st' => Partial todo st' ∧ SameGroups st st') E := by
  obtain ⟨u, hu⟩ := h.present userId mem_cons_self
  obtain ⟨u', hupdate, hgroups, hkeys, hfind⟩ := updatePrivileges_spec h.sets.roleKeys
    (h.sets.userKeys userId u hu) (h.held userId u hu mem_cons_self)
  have hstep : updateUser userId st = .ok () (st.setUserRole userId u') := by
    unfold updateUser
    rw [get_bind, hu]
    dsimp only
    rw [get_bind, hupdate]
    rfl
  have hcached : Cached (st.setUserRole userId u') u' := by
    intro key
    rw [hfind, hgroups]
    rfl
  rw [hstep]
  refine ⟨⟨?_, ?_, ?_, ?_, ?_⟩, rfl, rfl, ?_⟩
  · exact sets_setUserRole h.sets hkeys (hgroups ▸ h.sets.userGroups userId u hu)
  · intro userId' name
    rw [hasRole_setUserRole hu hgroups]
    exact h.mirror userId' name
  · intro userId' hmem
    by_cases hid : userId' = userId
    · exact ⟨u', hid ▸ setUserRole_self userId u' st⟩
    · rw [setUserRole_of_ne hid]
      exact h.present userId' (mem_cons_of_mem _ hmem)
  · intro userId' v hv hnot
    by_cases hid : userId' = userId
    · subst hid
      rw [setUserRole_self, Option.some.injEq] at hv
      rw [← hv]
      exact hcached
    · rw [setUserRole_of_ne hid] at hv
      exact h.cached userId' v hv (by simp [hid, hnot])
  · intro userId' v hv hmem
    by_cases hid : userId' = userId
    · subst hid
      rw [setUserRole_self, Option.some.injEq] at hv
      rw [← hv]
      exact hcached.held
    · rw [setUserRole_of_ne hid] at hv
      exact h.held userId' v hv (mem_cons_of_mem _ hmem)
  · intro userId'
    by_cases hid : userId' = userId
    · subst hid
      rw [setUserRole_self, hu]
      exact congrArg some hgroups
    · rw [setUserRole_of_ne hid]

/-- Updates of all the users that wait for one. -/
theorem updateUsers_meets {todo : List Nat} (h : Partial todo st) :
    (StateAction.forEach SysCatalog.updateUser todo st).Meets
      (fun _ st' => Inv st' ∧ SameGroups st st') E := by
  refine meets_forEach (I := fun todo st' => Partial todo st' ∧ SameGroups st st') ?_ todo
    ⟨h, SameGroups.refl st⟩
  intro userId todo st' hst'
  refine (updateUser_meets hst'.1).mono (fun _ st'' h'' => ?_) fun _ hE => hE
  exact ⟨h''.1, hst'.2.trans h''.2⟩

-- ======== changing a group role

@[simp]
theorem setRole_self (name : Name) (role : GroupRole) (st : SysCatalog) :
    (st.setRole name role).roleMap (toUpper name) = some role :=
  update_self _ _ _

theorem setRole_of_ne {name' : Name} (h : name' ≠ toUpper name) (role : GroupRole)
    (st : SysCatalog) : (st.setRole name role).roleMap name' = st.roleMap name' :=
  update_of_ne h _ _

theorem sets_setRole (h : Sets st) (hkeys : (role.dbObjectMap.map Prod.fst).Nodup)
    (husers : role.userRole.Nodup) :
    Sets (st.setRole name role) where
  roleKeys name' role' h' := by
    by_cases hn : name' = toUpper name
    · subst hn
      rw [setRole_self, Option.some.injEq] at h'
      rw [← h']
      exact hkeys
    · rw [setRole_of_ne hn] at h'
      exact h.roleKeys name' role' h'
  roleUsers name' role' h' := by
    by_cases hn : name' = toUpper name
    · subst hn
      rw [setRole_self, Option.some.injEq] at h'
      rw [← h']
      exact husers
    · rw [setRole_of_ne hn] at h'
      exact h.roleUsers name' role' h'
  userKeys := h.userKeys
  userGroups := h.userGroups

theorem entryAt_setRole_of_ne {name' : Name} (h : name' ≠ toUpper name) (role : GroupRole)
    (key : DBObjectKey) :
    entryAt (st.setRole name role).roleMap name' key = entryAt st.roleMap name' key := by
  rw [entryAt, entryAt, setRole_of_ne h]

theorem entryAt_setRole_self (st : SysCatalog) (name : Name) (role : GroupRole)
    (key : DBObjectKey) :
    entryAt (st.setRole name role).roleMap (toUpper name) key
      = StdMap.find? role.dbObjectMap key := by
  rw [entryAt, setRole_self]
  rfl

variable (h : Inv st)
include h

/-- A role changes its privileges and keeps its keys: its users have to be
updated. -/
theorem Inv.setRole {role' : GroupRole} (hrole : st.roleMap (toUpper name) = some role)
    (husers : role'.userRole = role.userRole) (hkeys : (role'.dbObjectMap.map Prod.fst).Nodup)
    (hmono : ∀ key, StdMap.find? role.dbObjectMap key ≠ none →
      StdMap.find? role'.dbObjectMap key ≠ none) :
    Partial role.userRole (st.setRole name role') := by
  have hmember : ∀ name' userId,
      HasMember (st.setRole name role') name' userId ↔ HasMember st name' userId := by
    intro name' userId
    unfold HasMember
    by_cases hn : name' = toUpper name
    · subst hn
      rw [setRole_self, hrole]
      simp [husers]
    · rw [setRole_of_ne hn]
  refine ⟨?_, ?_, ?_, ?_, ?_⟩
  · exact sets_setRole h.sets hkeys (husers ▸ h.sets.roleUsers _ role hrole)
  · intro userId name'
    rw [hmember]
    exact h.mirror userId name'
  · intro userId hmem
    obtain ⟨u, hu, -⟩ := (h.mirror userId (toUpper name)).mpr ⟨role, hrole, hmem⟩
    exact ⟨u, hu⟩
  · intro userId u hu hnot key
    have hother : toUpper name ∉ u.groupRole := by
      intro hin
      obtain ⟨role'', hrole'', hmem⟩ := (h.mirror userId (toUpper name)).mp ⟨u, hu, hin⟩
      rw [hrole, Option.some.injEq] at hrole''
      exact hnot (hrole'' ▸ hmem)
    rw [h.cached userId u hu (by simp) key]
    congr 1
    refine unionAt_congr fun name' hname' => ?_
    rw [entryAt_setRole_of_ne]
    intro heq
    exact hother (heq ▸ hname')
  · intro userId u hu hmem key hkey
    obtain ⟨name', hname', hentry⟩ :=
      unionAt_ne_none.mp ((h.cached userId u hu (by simp)).held key hkey)
    refine unionAt_ne_none.mpr ⟨name', hname', ?_⟩
    by_cases hn : name' = toUpper name
    · subst hn
      rw [entryAt_setRole_self]
      apply hmono
      rw [entryAt, hrole] at hentry
      exact hentry
    · rw [entryAt_setRole_of_ne hn]
      exact hentry

omit h in
theorem grant_spec (h : (role.dbObjectMap.map Prod.fst).Nodup) (key : DBObjectKey)
    (privs : AccessPrivileges) :
    (role.grant key privs).userRole = role.userRole
      ∧ ((role.grant key privs).dbObjectMap.map Prod.fst).Nodup
      ∧ StdMap.find? (role.grant key privs).dbObjectMap key ≠ none
      ∧ ∀ key', StdMap.find? role.dbObjectMap key' ≠ none →
        StdMap.find? (role.grant key privs).dbObjectMap key' ≠ none := by
  have hset : ∀ p, StdMap.find? (StdMap.set role.dbObjectMap key p) key ≠ none
      ∧ ∀ key', StdMap.find? role.dbObjectMap key' ≠ none →
        StdMap.find? (StdMap.set role.dbObjectMap key p) key' ≠ none := by
    intro p
    constructor
    · rw [StdMap.find?_set h, if_pos rfl]
      simp
    · intro key' hkey'
      rw [StdMap.find?_set h]
      split
      · simp
      · exact hkey'
  unfold GroupRole.grant
  split
  · exact ⟨rfl, StdMap.nodup_set h _ _, hset _⟩
  · exact ⟨rfl, StdMap.nodup_set h _ _, hset _⟩

/-- `GroupRole::grantPrivileges`. -/
theorem groupGrant_meets (hrole : st.roleMap (toUpper name) = some role)
    (key : DBObjectKey) (privs : AccessPrivileges) :
    (SysCatalog.groupGrant name role key privs st).Meets
      (fun _ st' => Inv st' ∧ SameGroups (st.setRole name (role.grant key privs)) st') E := by
  obtain ⟨husers, hkeys, -, hmono⟩ := grant_spec (h.sets.roleKeys _ role hrole) key privs
  exact updateUsers_meets (h.setRole hrole husers hkeys hmono)

theorem grantDBObjectPrivileges_meets (name : Name) (key : DBObjectKey) (privs : AccessPrivileges) :
    (SysCatalog.grantDBObjectPrivileges name key privs st).Meets
      (fun p st' => Inv st' ∧ ∃ role, st.roleMap (toUpper name) = some role
        ∧ SameGroups (st.setRole name (role.grant key privs)) st'
        ∧ StdMap.find? (role.grant key privs).dbObjectMap key = some p) Inv := by
  unfold grantDBObjectPrivileges
  split
  · exact h
  · rw [get_bind]
    unfold getMetadataForRole
    cases hrole : st.roleMap (toUpper name) with
    | none => exact h
    | some role =>
      refine meets_bind ((groupGrant_meets h hrole key privs).mono (fun _ st' h' => ?_)
        fun _ hE => hE)
      refine ⟨h'.1, role, rfl, h'.2, ?_⟩
      have hsome := (grant_spec (h.sets.roleKeys _ role hrole) key privs).2.2.1
      cases hfind : StdMap.find? (role.grant key privs).dbObjectMap key with
      | none => exact absurd hfind hsome
      | some p => rfl

omit h in
theorem revoke_spec {role' : GroupRole} (h : (role.dbObjectMap.map Prod.fst).Nodup)
    {key : DBObjectKey} {privs : AccessPrivileges} (hrevoke : role.revoke key privs = some role') :
    role'.userRole = role.userRole ∧ (role'.dbObjectMap.map Prod.fst).Nodup
      ∧ ∀ key', StdMap.find? role.dbObjectMap key' ≠ none →
        StdMap.find? role'.dbObjectMap key' ≠ none := by
  unfold GroupRole.revoke at hrevoke
  split at hrevoke
  · split at hrevoke
    · rw [Option.some.injEq] at hrevoke
      subst hrevoke
      refine ⟨rfl, StdMap.nodup_set h _ _, fun key' hkey' => ?_⟩
      rw [StdMap.find?_set h]
      split
      · simp
      · exact hkey'
    · cases hrevoke
  · cases hrevoke

theorem revokeDBObjectPrivileges_meets (name : Name) (key : DBObjectKey)
    (privs : AccessPrivileges) :
    (SysCatalog.revokeDBObjectPrivileges name key privs st).Meets (fun _ => Inv) Inv := by
  unfold revokeDBObjectPrivileges
  split
  · exact h
  · rw [get_bind]
    unfold getMetadataForRole
    cases hrole : st.roleMap (toUpper name) with
    | none => exact h
    | some role =>
      dsimp only
      cases hrevoke : role.revoke key privs with
      | none => exact h
      | some role' =>
        obtain ⟨husers, hkeys, hmono⟩ :=
          revoke_spec (h.sets.roleKeys _ role hrole) hrevoke
        dsimp only
        rw [modify_bind, husers]
        exact (updateUsers_meets (h.setRole hrole husers hkeys hmono)).mono
          (fun _ _ h' => h'.1) fun _ hE => hE

-- ======== a new role

/-- A role without users and privileges. -/
theorem Inv.newRole (hnone : st.roleMap (toUpper name) = none) (userPrivateRole : Bool) :
    Inv (st.setRole name ⟨[], userPrivateRole, []⟩) := by
  have hnobody : ∀ userId u, st.userRoleMap userId = some u → toUpper name ∉ u.groupRole := by
    intro userId u hu hin
    obtain ⟨role, hrole, -⟩ := (h.mirror userId (toUpper name)).mp ⟨u, hu, hin⟩
    rw [hnone] at hrole
    cases hrole
  refine ⟨sets_setRole h.sets nodup_nil nodup_nil, ?_, by simp, ?_, by simp⟩
  · intro userId name'
    by_cases hn : name' = toUpper name
    · subst hn
      constructor
      · rintro ⟨u, hu, hin⟩
        exact absurd hin (hnobody userId u hu)
      · rintro ⟨role, hrole, hmem⟩
        rw [setRole_self, Option.some.injEq] at hrole
        rw [← hrole] at hmem
        cases hmem
    · have hmember : HasMember (st.setRole name ⟨[], userPrivateRole, []⟩) name' userId
          ↔ HasMember st name' userId := by
        unfold HasMember
        rw [setRole_of_ne hn]
      rw [hmember]
      exact h.mirror userId name'
  · intro userId u hu _ key
    rw [h.cached userId u hu (by simp) key]
    congr 1
    refine unionAt_congr fun name' hname' => ?_
    rw [entryAt_setRole_of_ne]
    intro heq
    exact hnobody userId u hu (heq ▸ hname')

theorem createRole_meets (currentDb : DBObjectKey) (name : Name) (userPrivateRole : Bool) :
    (SysCatalog.createRole currentDb name userPrivateRole st).Meets (fun _ => Inv) Inv := by
  unfold createRole
  rw [get_bind]
  split
  · exact h
  · rw [get_bind]
    split
    · exact h
    · rename_i hnone
      have hnone' : st.roleMap (toUpper name) = none := by
        simpa [getMetadataForRole] using hnone
      exact (groupGrant_meets (h.newRole hnone' userPrivateRole) (setRole_self _ _ _)
        currentDb .none).mono (fun _ _ h' => h'.1) fun _ hE => hE

-- ======== granting a role

omit h in
/-- A membership changes on both sides at once; the user has to be
updated. -/
theorem Inv.setMember {st : SysCatalog} (h : Inv st) {name : Name} {role role' : GroupRole}
    {userId : Nat} {u : UserRole} (hrole : st.roleMap (toUpper name) = some role)
    (hobjects : role'.dbObjectMap = role.dbObjectMap) (husers : role'.userRole.Nodup)
    (hkeys : (u.dbObjectMap.map Prod.fst).Nodup) (hgroups : u.groupRole.Nodup)
    (hothers : ∀ userId' ≠ userId, userId' ∈ role'.userRole ↔ userId' ∈ role.userRole)
    (hnames : ∀ name' ≠ toUpper name, name' ∈ u.groupRole ↔ HasRole st userId name')
    (hboth : toUpper name ∈ u.groupRole ↔ userId ∈ role'.userRole) (hheld : Held st u) :
    Partial [userId] ((st.setUserRole userId u).setRole name role') := by
  have hentry : ∀ name' key, entryAt ((st.setUserRole userId u).setRole name role').roleMap
      name' key = entryAt st.roleMap name' key := by
    intro name' key
    by_cases hn : name' = toUpper name
    · subst hn
      rw [entryAt_setRole_self, hobjects, entryAt, hrole]
      rfl
    · rw [entryAt_setRole_of_ne hn]
      rfl
  have hunion : ∀ names key, unionAt ((st.setUserRole userId u).setRole name role').roleMap
      names key = unionAt st.roleMap names key :=
    fun names key => unionAt_congr fun name' _ => hentry name' key
  refine ⟨?_, ?_, ?_, ?_, ?_⟩
  · exact sets_setRole (sets_setUserRole h.sets hkeys hgroups)
      (hobjects ▸ h.sets.roleKeys _ role hrole) husers
  · intro userId' name'
    by_cases hid : userId' = userId
    · subst hid
      have hhas : HasRole ((st.setUserRole userId' u).setRole name role') userId' name'
          ↔ name' ∈ u.groupRole := by
        show (∃ v, (st.setUserRole userId' u).userRoleMap userId' = some v ∧ _) ↔ _
        simp
      rw [hhas]
      by_cases hn : name' = toUpper name
      · subst hn
        rw [hboth]
        unfold HasMember
        simp
      · rw [hnames name' hn, h.mirror]
        unfold HasMember
        rw [setRole_of_ne hn]
        rfl
    · have hhas : HasRole ((st.setUserRole userId u).setRole name role') userId' name'
          ↔ HasRole st userId' name' := by
        show (∃ v, (st.setUserRole userId u).userRoleMap userId' = some v ∧ _) ↔ _
        rw [setUserRole_of_ne hid]
        rfl
      rw [hhas, h.mirror]
      unfold HasMember
      by_cases hn : name' = toUpper name
      · subst hn
        rw [setRole_self, hrole]
        simp [hothers userId' hid]
      · rw [setRole_of_ne hn]
        rfl
  · intro userId' hmem
    rw [mem_singleton.mp hmem]
    exact ⟨u, setUserRole_self userId u st⟩
  · intro userId' v hv hnot key
    have hid : userId' ≠ userId := fun heq => hnot (mem_singleton.mpr heq)
    have hv' : st.userRoleMap userId' = some v := by
      rw [← setUserRole_of_ne hid u st]
      exact hv
    rw [h.cached userId' v hv' (by simp) key, hunion]
  · intro userId' v hv hmem key hkey
    rw [mem_singleton.mp hmem] at hv
    have hvu : v = u := by
      have hself := setUserRole_self userId u st
      exact Option.some.inj (hv.symm.trans hself)
    rw [hvu] at hkey ⊢
    rw [hunion]
    exact hheld key hkey

omit h in
theorem find?_copied (m : List (DBObjectKey × AccessPrivileges)) (key : DBObjectKey) :
    StdMap.find? (m.map fun kv => (kv.1, (⟨kv.2, true⟩ : Entry))) key
      = (StdMap.find? m key).map fun p => ⟨p, true⟩ := by
  induction m with
  | nil => rfl
  | cons kv m ih =>
    rw [map_cons, find?_cons, find?_cons, ih]
    split
    · rfl
    · rfl

/-- The part of `grantRole` where the user does not have the role. -/
theorem grantRole_new (hrole : st.roleMap (toUpper name) = some role)
    (hkeys : (u.dbObjectMap.map Prod.fst).Nodup) (hgroups : u.groupRole.Nodup)
    (hnames : ∀ name', name' ∈ u.groupRole ↔ HasRole st userId name')
    (hheld : ∀ key, StdMap.find? u.dbObjectMap key ≠ none →
      unionAt st.roleMap (u.groupRole ++ [toUpper name]) key ≠ none)
    (hnew : toUpper name ∉ u.groupRole) : ((do
      StateAction.modify (SysCatalog.setUserRole userId u)
      if toUpper name ∈ u.groupRole then return ()
      else
        StateAction.modify (SysCatalog.setUserRole userId
          { u with groupRole := u.groupRole ++ [toUpper name] })
        StateAction.modify (SysCatalog.setRole name
          { role with userRole := role.userRole.insert userId })
        SysCatalog.updateUser userId : Command Unit) st).Meets (fun _ => Inv) E := by
  rw [modify_bind, if_neg hnew, modify_bind, modify_bind]
  have htwice : setUserRole userId
      { u with groupRole := u.groupRole ++ [toUpper name] } (st.setUserRole userId u)
      = st.setUserRole userId { u with groupRole := u.groupRole ++ [toUpper name] } := by
    unfold setUserRole
    simp
  rw [htwice]
  suffices hpartial : Partial [userId] _ from
    (updateUser_meets hpartial).mono (fun _ _ h' => h'.1) fun _ hE => hE
  refine h.setMember hrole rfl ((h.sets.roleUsers _ role hrole).insert) hkeys
    (nodup_append.mpr ⟨hgroups, nodup_singleton _, ?_⟩) ?_ ?_ ?_ hheld
  · intro a ha b hb hab
    rw [mem_singleton.mp hb] at hab
    exact hnew (hab ▸ ha)
  · intro userId' hid
    simp [mem_insert_iff, hid]
  · intro name' hn
    rw [← hnames]
    simp [hn]
  · simp

theorem grantRole_meets (name userName : Name) :
    (SysCatalog.grantRole name userName st).Meets (fun _ => Inv) Inv := by
  unfold grantRole
  rw [get_bind]
  unfold getMetadataForRole
  cases hrole : st.roleMap (toUpper name) with
  | none => exact h
  | some role =>
    dsimp only
    rw [get_bind]
    cases huser : st.getMetadataForUser userName with
    | none => exact h
    | some user =>
      dsimp only
      rw [get_bind]
      cases hu : st.userRoleMap user.userId with
      | some u =>
        by_cases hin : toUpper name ∈ u.groupRole
        · rw [modify_bind, if_pos hin]
          have hsame : st.setUserRole user.userId u = st := by
            unfold setUserRole
            rw [← hu, update_eq_self]
          show Inv (st.setUserRole user.userId u)
          rw [hsame]
          exact h
        · refine grantRole_new h hrole (h.sets.userKeys _ u hu) (h.sets.userGroups _ u hu)
            (fun name' => ?_) (fun key hkey => ?_) hin
          · unfold HasRole
            rw [hu]
            simp
          · have hne := (h.cached _ u hu (by simp)).held key hkey
            obtain ⟨name', hname', hentry⟩ := unionAt_ne_none.mp hne
            exact unionAt_ne_none.mpr ⟨name', by simp [hname'], hentry⟩
      | none =>
        refine grantRole_new h hrole ?_ nodup_nil (fun name' => ?_)
          (fun key hkey => ?_) (by simp)
        · rw [map_map]
          exact h.sets.roleKeys _ role hrole
        · unfold HasRole
          rw [hu]
          simp
        · dsimp only at hkey
          rw [find?_copied] at hkey
          refine unionAt_ne_none.mpr ⟨toUpper name, by simp, ?_⟩
          rw [entryAt, hrole]
          intro hnone
          apply hkey
          rw [show StdMap.find? role.dbObjectMap key = none from hnone]
          rfl

end Compass.Catalog
