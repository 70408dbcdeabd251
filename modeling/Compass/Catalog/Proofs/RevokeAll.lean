/-
When revoking an object from all roles leaves nothing.

# Plan

The updates of a role's users do not depend on each other
(`forEach_updateUser`), and one succeeds where every key of the user is in one
of the user's roles (`updatePrivileges_isSome_iff`). In the loop, a name
without a record is passed over (`revokeFromRoles_append`), and one with a
record takes a step (`revokeFromRoles_cons_ok`) that the rest does not undo
(`revokeFromRoles_frame`). If nothing is left to the first role then the object
holds nothing any more, and a second role would keep what it has.
-/
import Compass.Catalog.RevokeAll

namespace Compass.Catalog

open List Option Prod

-- ======== updating all members

theorem updatePrivileges_isSome_iff {roles : Name → Option GroupRole} {u : UserRole}
    (hroles : ∀ name role, roles name = some role → (role.dbObjectMap.map fst).Nodup)
    (hu : (u.dbObjectMap.map fst).Nodup) :
    (u.updatePrivileges roles).isSome ↔
      ∀ key, StdMap.find? u.dbObjectMap key ≠ none → unionAt roles u.groupRole key ≠ none := by
  constructor
  · intro hsome key hkey hunion
    set m := u.dbObjectMap.map fun kv => (kv.1, { kv.2 with privsValid := false }) with hm
    have hnodup : (m.map fst).Nodup := by
      rw [hm, List.map_map]
      exact hu
    obtain ⟨e, he⟩ := ne_none_iff_exists'.1 hkey
    -- nothing is put on top of the entry, so it is still not valid
    have hfind : StdMap.find? (updateAll roles u.groupRole m) key
        = some { e with privsValid := false } := by
      rw [(find?_updateAll hroles u.groupRole key hnodup).2, hunion, hm, find?_unvalidated, he]
      rfl
    obtain ⟨u', hu'⟩ := isSome_iff_exists.1 hsome
    have hall : (updateAll roles u.groupRole m).all (fun kv => kv.2.privsValid) = true := by
      by_contra hnot
      rw [show u.updatePrivileges roles = none from if_neg hnot] at hu'
      cases hu'
    have hvalid := List.all_eq_true.1 hall _ (StdMap.find?_eq_some hfind)
    cases hvalid
  · intro hheld
    obtain ⟨u', hu', -⟩ := updatePrivileges_spec hroles hu hheld
    rw [hu']
    rfl

/-- What `updatePrivileges` makes of a user. -/
def refreshed (st : SysCatalog) (userId : Nat) : Option UserRole :=
  (st.userRoleMap userId).bind fun u => u.updatePrivileges st.roleMap

def refreshAll (ids : List Nat) (st : SysCatalog) : SysCatalog :=
  { st with
    userRoleMap := fun userId =>
      if userId ∈ ids then refreshed st userId else st.userRoleMap userId }

theorem updateUser_eq (st : SysCatalog) (userId : Nat) :
    SysCatalog.updateUser userId st =
      match refreshed st userId with
      | some u => .ok () (st.setUserRole userId u)
      | none => .undefined := by
  unfold SysCatalog.updateUser refreshed
  rw [StateAction.get_bind]
  cases hu : st.userRoleMap userId with
  | none => rfl
  | some u =>
    dsimp only
    rw [StateAction.get_bind, bind_some]
    cases u.updatePrivileges st.roleMap with
    | none | some u' => rfl

theorem forEach_updateUser {ids : List Nat} (hids : ids.Nodup) (st : SysCatalog) :
    StateAction.forEach SysCatalog.updateUser ids st =
      if ∀ userId ∈ ids, (refreshed st userId).isSome then .ok () (refreshAll ids st)
      else .undefined := by
  induction ids generalizing st with
  | nil => rfl
  | cons userId ids ih =>
    obtain ⟨hnot, hids⟩ := nodup_cons.1 hids
    show StateAction.bind (SysCatalog.updateUser userId)
      (fun _ => StateAction.forEach SysCatalog.updateUser ids) st = _
    unfold StateAction.bind
    rw [updateUser_eq]
    cases hu : refreshed st userId with
    | none =>
      rw [if_neg]
      intro hall
      have hsome := hall userId mem_cons_self
      rw [hu] at hsome
      cases hsome
    | some u =>
      dsimp only
      have hothers : ∀ userId' ∈ ids, refreshed (st.setUserRole userId u) userId'
          = refreshed st userId' := by
        intro userId' hmem
        have hne : userId' ≠ userId := fun heq => hnot (heq ▸ hmem)
        rw [refreshed, setUserRole_of_ne hne]
        rfl
      have hstate : refreshAll ids (st.setUserRole userId u)
          = refreshAll (userId :: ids) st := by
        unfold refreshAll
        congr 1
        funext userId'
        by_cases hid : userId' = userId
        · subst hid
          rw [if_neg hnot, if_pos mem_cons_self, setUserRole_self, hu]
        · rw [setUserRole_of_ne hid]
          by_cases hmem : userId' ∈ ids
          · rw [if_pos hmem, if_pos (mem_cons_of_mem _ hmem), hothers userId' hmem]
          · rw [if_neg hmem, if_neg (by simp [hid, hmem])]
      rw [ih hids, hstate]
      congr 1
      rw [forall_mem_cons, hu]
      refine propext ⟨fun hall => ⟨rfl, fun userId' hmem => ?_⟩, fun hall userId' hmem => ?_⟩
      · rw [← hothers userId' hmem]
        exact hall userId' hmem
      · rw [hothers userId' hmem]
        exact hall.2 userId' hmem

theorem forEach_updateUser_roleMap {ids : List Nat} {st st' : SysCatalog}
    (h : StateAction.forEach SysCatalog.updateUser ids st = .ok () st') :
    st'.roleMap = st.roleMap := by
  induction ids generalizing st with
  | nil =>
    cases h
    rfl
  | cons userId ids ih =>
    change StateAction.bind (SysCatalog.updateUser userId)
      (fun _ => StateAction.forEach SysCatalog.updateUser ids) st = _ at h
    unfold StateAction.bind at h
    rw [updateUser_eq] at h
    cases hu : refreshed st userId with
    | none =>
      rw [hu] at h
      cases h
    | some u =>
      rw [hu] at h
      have hrest : StateAction.forEach SysCatalog.updateUser ids (st.setUserRole userId u)
          = .ok () st' := h
      have hsame := ih hrest
      exact hsame

-- ======== the loop

/-- The role with less in its record. -/
def GroupRole.withRecord (role : GroupRole) (key : DBObjectKey) (p : AccessPrivileges) :
    GroupRole :=
  { role with dbObjectMap := StdMap.set role.dbObjectMap key p }

section

variable {key : DBObjectKey} {st st' : SysCatalog} {name : Name} {names : List Name}
  {privs p : AccessPrivileges} {role : GroupRole}

theorem revokeFromRoles_cons_none (hupper : toUpper name = name)
    (hrole : st.roleMap name = some role) (hentry : entryAt st.roleMap name key = none) :
    SysCatalog.revokeFromRoles key (name :: names) privs st
      = SysCatalog.revokeFromRoles key names privs st := by
  rw [entryAt, hrole, bind_some] at hentry
  rw [SysCatalog.revokeFromRoles, StateAction.get_bind, SysCatalog.getMetadataForRole, hupper,
    hrole]
  dsimp only
  rw [hentry, if_neg (by simp)]

/-- The names that can be gone through in a state. -/
def Listed (st : SysCatalog) (names : List Name) : Prop :=
  ∀ name ∈ names, toUpper name = name ∧ ∃ role, st.roleMap name = some role
    ∧ (role.dbObjectMap.map Prod.fst).Nodup

theorem Listed.tail (h : Listed st (name :: names)) : Listed st names :=
  fun name' hmem => h name' (mem_cons_of_mem _ hmem)

theorem Listed.congr (h : Listed st names)
    (hsame : ∀ name ∈ names, st'.roleMap name = st.roleMap name) : Listed st' names := by
  intro name hmem
  rw [hsame name hmem]
  exact h name hmem

theorem revokeFromRoles_append {skipped : List Name} (hlisted : Listed st skipped)
    (hentries : ∀ name ∈ skipped, entryAt st.roleMap name key = none) :
    SysCatalog.revokeFromRoles key (skipped ++ names) privs st
      = SysCatalog.revokeFromRoles key names privs st := by
  induction skipped with
  | nil => rfl
  | cons name skipped ih =>
    obtain ⟨hupper, role, hrole, -⟩ := hlisted name mem_cons_self
    rw [cons_append, revokeFromRoles_cons_none hupper hrole (hentries name mem_cons_self)]
    exact ih hlisted.tail fun name' hmem => hentries name' (mem_cons_of_mem _ hmem)

/-- Nothing is done where nobody has a record. -/
theorem revokeFromRoles_skip (key : DBObjectKey) (privs : AccessPrivileges)
    (hlisted : Listed st names) (hentries : ∀ name ∈ names, entryAt st.roleMap name key = none) :
    SysCatalog.revokeFromRoles key names privs st = .ok () st := by
  rw [← append_nil names, revokeFromRoles_append hlisted hentries]
  rfl

section

variable (hupper : toUpper name = name)
include hupper

theorem ne_root_of_upper : name ≠ mapdRootUser := by
  rintro rfl
  revert hupper
  decide

/-- One role with a record. -/
theorem revokeFromRoles_cons_some
    (hrole : st.roleMap name = some role) (hp : StdMap.find? role.dbObjectMap key = some p)
    (hany : p.hasAny = true) :
    SysCatalog.revokeFromRoles key (name :: names) privs st =
      ((StateAction.forEach SysCatalog.updateUser role.userRole >>= fun _ =>
        StateAction.get >>= fun st =>
          match st.getMetadataForRole name with
          | none => StateAction.abort
          | some role =>
            SysCatalog.revokeFromRoles key names
              ((StdMap.find? role.dbObjectMap key).getD .none)) : Command Unit)
        (st.setRole name (role.withRecord key (p.revoke privs))) := by
  have hrevoke : role.revoke key privs = some (role.withRecord key (p.revoke privs)) := by
    simp only [GroupRole.revoke, hp, if_pos hany]
    rfl
  rw [SysCatalog.revokeFromRoles, StateAction.get_bind, SysCatalog.getMetadataForRole, hupper,
    hrole]
  dsimp only
  rw [hp, if_pos (by simp), SysCatalog.revokeDBObjectPrivileges, if_neg (ne_root_of_upper hupper)]
  show StateAction.bind _ _ st = _
  unfold StateAction.bind
  rw [StateAction.get_bind, SysCatalog.getMetadataForRole, hupper, hrole]
  dsimp only
  rw [hrevoke]
  rfl

theorem revokeFromRoles_cons_ok
    (hrole : st.roleMap name = some role) (hkeys : (role.dbObjectMap.map fst).Nodup)
    (hp : StdMap.find? role.dbObjectMap key = some p) :
    SysCatalog.revokeFromRoles key (name :: names) privs st = .ok () st' ↔
      p.hasAny = true ∧ ∃ st₁, StateAction.forEach SysCatalog.updateUser role.userRole
            (st.setRole name (role.withRecord key (p.revoke privs))) = .ok () st₁
          ∧ SysCatalog.revokeFromRoles key names (p.revoke privs) st₁ = .ok () st' := by
  by_cases hany : p.hasAny = true
  · rw [revokeFromRoles_cons_some hupper hrole hp hany, and_iff_right hany]
    show StateAction.bind _ _ _ = _ ↔ _
    unfold StateAction.bind
    cases hloop : StateAction.forEach SysCatalog.updateUser role.userRole
        (st.setRole name (role.withRecord key (p.revoke privs))) with
    | ok a st₁ =>
      have hsame := forEach_updateUser_roleMap hloop
      have hmap : st₁.getMetadataForRole name
          = some (role.withRecord key (p.revoke privs)) := by
        rw [SysCatalog.getMetadataForRole, hsame, setRole_self]
      have hleft : (StdMap.find? (role.withRecord key (p.revoke privs)).dbObjectMap key).getD
          .none = p.revoke privs := by
        rw [GroupRole.withRecord, StdMap.find?_set hkeys, if_pos rfl]
        rfl
      dsimp only
      rw [StateAction.get_bind, hmap]
      dsimp only
      rw [hleft]
      constructor
      · intro h
        exact ⟨st₁, rfl, h⟩
      · rintro ⟨st₂, hst₂, h⟩
        cases hst₂
        exact h
    | threw message st₁ | aborted | undefined => simp
  · have hrevoke : role.revoke key privs = none := by
      simp only [GroupRole.revoke, hp, if_neg hany]
    rw [SysCatalog.revokeFromRoles, StateAction.get_bind, SysCatalog.getMetadataForRole, hupper,
      hrole]
    dsimp only
    rw [hp, if_pos (by simp), SysCatalog.revokeDBObjectPrivileges, if_neg (ne_root_of_upper hupper)]
    refine iff_of_false ?_ fun h => hany h.1
    show StateAction.bind _ _ st ≠ _
    unfold StateAction.bind
    rw [StateAction.get_bind, SysCatalog.getMetadataForRole, hupper, hrole]
    dsimp only
    rw [hrevoke]
    intro h
    cases h

theorem roleMap_setRole (role' : GroupRole) (name' : Name) : (st.setRole name role').roleMap name'
      = if name' = name then some role' else st.roleMap name' := by
  by_cases h : name' = name
  · have hself := setRole_self name role' st
    rw [hupper] at hself
    rw [if_pos h, h, hself]
  · rw [if_neg h, setRole_of_ne (by rwa [hupper])]

end

/-- The loop leaves the other roles alone. -/
theorem revokeFromRoles_frame (hnodup : names.Nodup) (hlisted : Listed st names)
    (h : SysCatalog.revokeFromRoles key names privs st = .ok () st') :
    ∀ name ∉ names, st'.roleMap name = st.roleMap name := by
  induction names generalizing st privs with
  | nil =>
    intro name _
    cases h
    rfl
  | cons name names ih =>
    intro name' hnot
    rw [mem_cons, not_or] at hnot
    obtain ⟨hfresh, hnodup⟩ := nodup_cons.1 hnodup
    obtain ⟨hupper, role, hrole, hkeys⟩ := hlisted name mem_cons_self
    cases hp : StdMap.find? role.dbObjectMap key with
    | none =>
      rw [revokeFromRoles_cons_none hupper hrole (by rw [entryAt, hrole]; exact hp)] at h
      exact ih hnodup hlisted.tail h name' hnot.2
    | some p =>
      obtain ⟨-, st₁, hloop, hrest⟩ := (revokeFromRoles_cons_ok hupper hrole hkeys hp).1 h
      have hsame := forEach_updateUser_roleMap hloop
      have hlisted₁ : Listed st₁ names := by
        refine hlisted.tail.congr fun name'' hmem => ?_
        have hne : name'' ≠ name := fun heq => hfresh (heq ▸ hmem)
        rw [hsame, roleMap_setRole hupper, if_neg hne]
      rw [ih hnodup hlisted₁ hrest name' hnot.2, hsame, roleMap_setRole hupper, if_neg hnot.1]

-- ======== what the loop leaves

theorem covers_iff (privs p : AccessPrivileges) :
    privs.covers p = true ↔ (p.revoke privs).hasAny = false := by
  simp [AccessPrivileges.covers, AccessPrivileges.revoke, AccessPrivileges.hasAny, and_assoc,
    imp_iff_not_or]

theorem revoke_none (p : AccessPrivileges) : p.revoke .none = p := by
  simp [AccessPrivileges.revoke, AccessPrivileges.none]

theorem eq_none_of_hasAny (h : p.hasAny = false) : p = .none := by
  simp only [AccessPrivileges.hasAny, Bool.or_eq_false_iff] at h
  cases p
  simp_all [AccessPrivileges.none]

theorem entryAt_of_role (hrole : st.roleMap name = some role) (key : DBObjectKey) :
    entryAt st.roleMap name key = StdMap.find? role.dbObjectMap key := by
  rw [entryAt, hrole]
  rfl

theorem entryAt_withRecord (hupper : toUpper name = name) (hrole : st.roleMap name = some role)
    (hkeys : (role.dbObjectMap.map fst).Nodup) (q : AccessPrivileges) (name' : Name)
    (key' : DBObjectKey) :
    entryAt (st.setRole name (role.withRecord key q)).roleMap name' key'
      = if name' = name ∧ key' = key then some q else entryAt st.roleMap name' key' := by
  rw [entryAt, roleMap_setRole hupper]
  by_cases hn : name' = name
  · rw [if_pos hn, hn, entryAt_of_role hrole, bind_some, GroupRole.withRecord,
      StdMap.find?_set hkeys]
    simp
  · rw [if_neg hn, if_neg fun h => hn h.1, entryAt]

/-- If nothing is left then nobody had a record, or one role had one and all
the rest of the loop is the update of its users. -/
theorem revokeFromRoles_free (hnodup : names.Nodup) (hlisted : Listed st names)
    (h : SysCatalog.revokeFromRoles key names privs st = .ok () st')
    (hfree : ∀ name ∈ names, RoleFree st' key name) :
    ((∀ name ∈ names, entryAt st.roleMap name key = none) ∧ st' = st)
      ∨ ∃ name ∈ names, ∃ role p, st.roleMap name = some role
        ∧ StdMap.find? role.dbObjectMap key = some p
        ∧ p.hasAny = true ∧ privs.covers p = true
        ∧ (∀ name' ∈ names, name' ≠ name → entryAt st.roleMap name' key = none)
        ∧ StateAction.forEach SysCatalog.updateUser role.userRole
            (st.setRole name (role.withRecord key (p.revoke privs))) = .ok () st' := by
  induction names generalizing st privs with
  | nil =>
    cases h
    exact .inl ⟨nofun, rfl⟩
  | cons name names ih =>
    obtain ⟨hfresh, hnodup⟩ := nodup_cons.1 hnodup
    obtain ⟨hupper, role, hrole, hkeys⟩ := hlisted name mem_cons_self
    have hentry := entryAt_of_role hrole key
    cases hp : StdMap.find? role.dbObjectMap key with
    | none =>
      rw [hp] at hentry
      rw [revokeFromRoles_cons_none hupper hrole hentry] at h
      rcases ih hnodup hlisted.tail h
        (fun name' hmem => hfree name' (mem_cons_of_mem _ hmem)) with
        ⟨hnone, hsame⟩ | ⟨name', hmem, role', p, hrole', hp', hany, hcovers, hothers, hloop⟩
      · exact .inl ⟨forall_mem_cons.2 ⟨hentry, hnone⟩, hsame⟩
      · exact .inr ⟨name', mem_cons_of_mem _ hmem, role', p, hrole', hp', hany, hcovers,
          forall_mem_cons.2 ⟨fun _ => hentry, hothers⟩, hloop⟩
    | some p =>
      obtain ⟨hany, st₁, hloop, hrest⟩ := (revokeFromRoles_cons_ok hupper hrole hkeys hp).1 h
      have hsame := forEach_updateUser_roleMap hloop
      have hroles : ∀ name' ∈ names, st₁.roleMap name' = st.roleMap name' := by
        intro name' hmem
        have hne : name' ≠ name := fun heq => hfresh (heq ▸ hmem)
        rw [hsame, roleMap_setRole hupper, if_neg hne]
      have hlisted₁ : Listed st₁ names := hlisted.tail.congr hroles
      have hlast : entryAt st'.roleMap name key = some (p.revoke privs) := by
        rw [entryAt, revokeFromRoles_frame hnodup hlisted₁ hrest name hfresh, hsame,
          ← entryAt, entryAt_withRecord hupper hrole hkeys, if_pos ⟨rfl, rfl⟩]
      have hempty := (hfree name mem_cons_self).entry _ hlast
      rw [eq_none_of_hasAny hempty] at hrest
      -- an object that holds nothing takes nothing away
      rcases ih hnodup hlisted₁ hrest
        (fun name' hmem => hfree name' (mem_cons_of_mem _ hmem)) with
        ⟨hnone, rfl⟩ | ⟨_, _, _, p', _, _, hany', hcovers', _⟩
      swap
      · rw [covers_iff, revoke_none, hany'] at hcovers'
        cases hcovers'
      refine .inr ⟨name, mem_cons_self, role, p, hrole, hp, hany,
        (covers_iff privs p).2 hempty, fun name' hmem hne => ?_, hloop⟩
      have hmem : name' ∈ names := (mem_cons.1 hmem).resolve_left hne
      rw [entryAt, ← hroles name' hmem]
      exact hnone name' hmem

end

-- ======== the users

section

variable {key : DBObjectKey} {st : SysCatalog} {name : Name} {names : List Name}
  {p : AccessPrivileges} {role : GroupRole}

theorem RoleNames.listed (hst : Linked st) (h : RoleNames st names) : Listed st names := by
  intro name hmem
  obtain ⟨⟨role, hrole⟩, -⟩ := (h.mem name).1 hmem
  exact ⟨hst.upper name role hrole, role, hrole, hst.sets.roleKeys name role hrole⟩

theorem updatePrivileges_entry {roles : Name → Option GroupRole} {u u' : UserRole}
    (hroles : ∀ name role, roles name = some role → (role.dbObjectMap.map fst).Nodup)
    (hu : (u.dbObjectMap.map fst).Nodup) (h : u.updatePrivileges roles = some u')
    (key : DBObjectKey) :
    StdMap.find? u'.dbObjectMap key = (unionAt roles u.groupRole key).map fun p => ⟨p, true⟩ := by
  have hheld := (updatePrivileges_isSome_iff hroles hu).1 (by rw [h]; rfl)
  obtain ⟨u'', hu'', -, -, hfind⟩ := updatePrivileges_spec hroles hu hheld
  rw [h, some.injEq] at hu''
  rw [hu'']
  exact hfind key

theorem unionAt_free {roles : Name → Option GroupRole} {names : List Name}
    (h : ∀ name ∈ names, ∀ p, entryAt roles name key = some p → p.hasAny = false) :
    ∀ q, unionAt roles names key = some q → q.hasAny = false := by
  induction names with
  | nil => exact nofun
  | cons name names ih =>
    intro q hq
    rw [unionAt_cons] at hq
    have hhead := h name mem_cons_self
    have htail := ih fun name' hmem => h name' (mem_cons_of_mem _ hmem)
    cases hentry : entryAt roles name key with
    | none =>
      rw [hentry] at hq
      exact htail q hq
    | some p =>
      rw [hentry] at hq
      rw [eq_none_of_hasAny (hhead p hentry)] at hq
      cases hunion : unionAt roles names key with
      | none =>
        rw [hunion] at hq
        cases hq
        rfl
      | some q' =>
        rw [hunion] at hq
        cases hq
        rw [eq_none_of_hasAny (htail q' hunion)]
        rfl

/-- A role with less in its record, and its users brought up to date. -/
def afterRevoke (st : SysCatalog) (key : DBObjectKey) (name : Name) (role : GroupRole)
    (q : AccessPrivileges) : SysCatalog :=
  refreshAll role.userRole (st.setRole name (role.withRecord key q))

theorem userEntry_afterRevoke {userId : Nat} (hnot : userId ∉ role.userRole)
    (q : AccessPrivileges) (key' : DBObjectKey) :
    userEntry (afterRevoke st key name role q) userId key' = userEntry st userId key' := by
  rw [userEntry, afterRevoke, refreshAll]
  dsimp only
  rw [if_neg hnot]
  rfl

/-- What is known of the role that has the record. -/
structure Recorded (st : SysCatalog) (key : DBObjectKey) (name : Name) (role : GroupRole)
    (p : AccessPrivileges) : Prop where
  linked : Linked st
  found : st.roleMap name = some role
  record : StdMap.find? role.dbObjectMap key = some p

namespace Recorded

variable (h : Recorded st key name role p) (q : AccessPrivileges)
include h

theorem upper : toUpper name = name :=
  h.linked.upper name role h.found

theorem keys : (role.dbObjectMap.map fst).Nodup :=
  h.linked.sets.roleKeys name role h.found

theorem entry (name' : Name) (key' : DBObjectKey) :
    entryAt (afterRevoke st key name role q).roleMap name' key'
      = if name' = name ∧ key' = key then some q else entryAt st.roleMap name' key' :=
  entryAt_withRecord h.upper h.found h.keys q name' key'

theorem roleKeys : ∀ name' role', (st.setRole name (role.withRecord key q)).roleMap name'
    = some role' → (role'.dbObjectMap.map fst).Nodup := by
  intro name' role' hrole'
  rw [roleMap_setRole h.upper] at hrole'
  split at hrole'
  · rw [← some.inj hrole']
    exact StdMap.nodup_set h.keys _ _
  · exact h.linked.sets.roleKeys name' role' hrole'

theorem union_other {key' : DBObjectKey} (hne : key' ≠ key) (names : List Name) :
    unionAt (st.setRole name (role.withRecord key q)).roleMap names key'
      = unionAt st.roleMap names key' :=
  unionAt_congr fun name' _ => by
    rw [entryAt_withRecord h.upper h.found h.keys, if_neg fun heq => hne heq.2]

variable {userId : Nat}

theorem mem_iff : userId ∈ role.userRole ↔ HasRole st userId name := by
  rw [h.linked.mirror]
  constructor
  · intro hmem
    exact ⟨role, h.found, hmem⟩
  · rintro ⟨role', hrole', hmem⟩
    rw [h.found, some.injEq] at hrole'
    rwa [hrole']

variable {u : UserRole} (hu : st.userRoleMap userId = some u)
include hu

/-- A user is updated if every other key is in one of the user's roles. -/
theorem refreshed_isSome_iff (hmem : name ∈ u.groupRole) :
    (refreshed (st.setRole name (role.withRecord key q)) userId).isSome ↔
      ∀ key' ≠ key, StdMap.find? u.dbObjectMap key' ≠ none →
        unionAt st.roleMap u.groupRole key' ≠ none := by
  have hself : unionAt (st.setRole name (role.withRecord key q)).roleMap u.groupRole key
      ≠ none := by
    refine unionAt_ne_none.2 ⟨name, hmem, ?_⟩
    rw [entryAt_withRecord h.upper h.found h.keys, if_pos ⟨rfl, rfl⟩]
    simp
  rw [refreshed, show (st.setRole name (role.withRecord key q)).userRoleMap userId = some u from hu,
    bind_some,
    updatePrivileges_isSome_iff (h.roleKeys q) (h.linked.sets.userKeys userId u hu)]
  constructor
  · intro hheld key' hne hkey'
    rw [← h.union_other q hne]
    exact hheld key' hkey'
  · intro hheld key' hkey'
    by_cases hne : key' = key
    · rw [hne]
      exact hself
    · rw [h.union_other q hne]
      exact hheld key' hne hkey'

theorem userEntry_of_mem (hmem : userId ∈ role.userRole)
    (hsome : (refreshed (st.setRole name (role.withRecord key q)) userId).isSome)
    (key' : DBObjectKey) : userEntry (afterRevoke st key name role q) userId key'
      = (unionAt (st.setRole name (role.withRecord key q)).roleMap u.groupRole key').map
        fun p => ⟨p, true⟩ := by
  obtain ⟨u', hu'⟩ := isSome_iff_exists.1 hsome
  rw [userEntry, afterRevoke, refreshAll]
  dsimp only
  rw [if_pos hmem, hu', bind_some]
  rw [refreshed, show (st.setRole name (role.withRecord key q)).userRoleMap userId = some u from hu,
    bind_some] at hu'
  exact updatePrivileges_entry (h.roleKeys q) (h.linked.sets.userKeys userId u hu) hu' key'

end Recorded

-- ======== nothing is left

/-- Nothing is left only if one role at most has a record. -/
theorem atMostOneHolder_of_cleared (hst : Linked st) (hnames : RoleNames st names)
    (h : LeavesNothing key names st) : AtMostOneHolder st key := by
  unfold LeavesNothing SysCatalog.revokeDBObjectPrivilegesFromAllRoles at h
  cases hrun : SysCatalog.revokeFromRoles key names (objectPrivs key) st with
  | threw message st' | aborted | undefined => rw [hrun] at h; exact h.elim
  | ok a st' =>
    rw [hrun] at h
    have hlisted := hnames.listed hst
    have houtside : ∀ name ∉ names, ¬ IsDefaultRole name →
        entryAt st.roleMap name key = none := by
      intro name hnot hdefault
      cases hrole : st.roleMap name with
      | none => rw [entryAt, hrole]; rfl
      | some role => exact absurd ((hnames.mem name).2 ⟨⟨role, hrole⟩, hdefault⟩) hnot
    have hdefaults : ∀ name, IsDefaultRole name → RoleFree st key name := by
      intro name hdefault
      have hnot : name ∉ names := fun hmem => ((hnames.mem name).1 hmem).2 hdefault
      refine ⟨fun p hp => (h.roles name).entry p ?_⟩
      rw [entryAt, revokeFromRoles_frame hnames.nodup hlisted hrun name hnot]
      exact hp
    refine ⟨hdefaults, ?_⟩
    rcases revokeFromRoles_free hnames.nodup hlisted hrun (fun name _ => h.roles name) with
      ⟨hnone, rfl⟩ | ⟨name, hmem, role, p, hrole, hp, hany, hcovers, hothers, hloop⟩
    · refine .inl ⟨fun name hdefault => ?_, h.users⟩
      by_cases hmem : name ∈ names
      · exact hnone name hmem
      · exact houtside name hmem hdefault
    · have hrec : Recorded st key name role p := ⟨hst, hrole, hp⟩
      rw [forEach_updateUser (hst.sets.roleUsers name role hrole)] at hloop
      split at hloop
      swap
      · cases hloop
      next hall =>
      have hst' : st' = afterRevoke st key name role (p.revoke (objectPrivs key)) := by
        cases hloop
        rfl
      subst hst'
      refine .inr ⟨name, ((hnames.mem name).1 hmem).2,
        ⟨p, (entryAt_of_role hrole key).trans hp, hany, hcovers⟩, ?_, ?_, ?_⟩
      · intro name' hne hdefault
        by_cases hmem' : name' ∈ names
        · exact hothers name' hmem' hne
        · exact houtside name' hmem' hdefault
      · intro userId u hu hin key' hne
        have hmem' : userId ∈ role.userRole := hrec.mem_iff.2 ⟨u, hu, hin⟩
        have hentry := hrec.userEntry_of_mem _ hu hmem' (hall userId hmem') key'
        rw [h.otherUsers key' hne, hrec.union_other _ hne, userEntry, hu, bind_some]
          at hentry
        exact hentry
      · intro userId hnot
        refine ⟨fun e he => (h.users userId).entry e ?_⟩
        rw [userEntry_afterRevoke fun hin => hnot (hrec.mem_iff.1 hin)]
        exact he

theorem cleared_of_unheld (hst : Linked st) (hnames : RoleNames st names)
    (hdefaults : ∀ name, IsDefaultRole name → RoleFree st key name) (h : Unheld st key) :
    LeavesNothing key names st := by
  have hrun : SysCatalog.revokeDBObjectPrivilegesFromAllRoles names key st = .ok () st :=
    revokeFromRoles_skip key (objectPrivs key) (hnames.listed hst)
      fun name hmem => h.roles name ((hnames.mem name).1 hmem).2
  rw [LeavesNothing, hrun]
  refine ⟨fun name => ?_, h.users, fun _ _ _ => rfl, fun _ _ _ => rfl⟩
  by_cases hdefault : IsDefaultRole name
  · exact hdefaults name hdefault
  · refine ⟨fun p hp => ?_⟩
    rw [h.roles name hdefault] at hp
    cases hp

theorem cleared_of_onlyHolder (hst : Linked st) (hnames : RoleNames st names)
    (hdefaults : ∀ name, IsDefaultRole name → RoleFree st key name)
    (h : OnlyHolder st key name) : LeavesNothing key names st := by
  obtain ⟨p, hp, hany, hcovers⟩ := h.record
  obtain ⟨role, hrole, hp⟩ := bind_eq_some_iff.1 hp
  have hrec : Recorded st key name role p := ⟨hst, hrole, hp⟩
  have hempty := (covers_iff _ _).1 hcovers
  have hall : ∀ userId ∈ role.userRole,
      (refreshed (st.setRole name (role.withRecord key (p.revoke (objectPrivs key)))) userId).isSome
      := by
    intro userId hmem
    obtain ⟨u, hu, hin⟩ := hrec.mem_iff.1 hmem
    rw [hrec.refreshed_isSome_iff _ hu hin]
    intro key' hne hkey' hnone
    rw [h.members userId u hu hin key' hne, hnone] at hkey'
    exact hkey' rfl
  have hrun : SysCatalog.revokeDBObjectPrivilegesFromAllRoles names key st
      = .ok () (afterRevoke st key name role (p.revoke (objectPrivs key))) := by
    have hmem : name ∈ names := (hnames.mem name).2 ⟨⟨role, hrole⟩, h.listed⟩
    obtain ⟨before, after, rfl⟩ := append_of_mem hmem
    have hlisted := hnames.listed hst
    have hnodup := nodup_append.1 hnames.nodup
    have hafter : name ∉ after := (nodup_cons.1 hnodup.2.1).1
    have hothers : ∀ name' ∈ before ++ name :: after, name' ≠ name →
        entryAt st.roleMap name' key = none :=
      fun name' hmem' hne => h.others name' hne ((hnames.mem name').1 hmem').2
    rw [SysCatalog.revokeDBObjectPrivilegesFromAllRoles, revokeFromRoles_append
      (fun name' hmem' => hlisted name' (mem_append_left _ hmem'))
      fun name' hmem' => hothers name' (mem_append_left _ hmem')
        fun heq => hnodup.2.2 name' hmem' name mem_cons_self heq]
    refine (revokeFromRoles_cons_ok hrec.upper hrole hrec.keys hp).2
      ⟨hany, afterRevoke st key name role (p.revoke (objectPrivs key)), ?_, ?_⟩
    · rw [forEach_updateUser (hst.sets.roleUsers name role hrole), if_pos hall]
      rfl
    · have hne : ∀ name' ∈ after, name' ≠ name := fun name' hmem' heq => hafter (heq ▸ hmem')
      refine revokeFromRoles_skip key _ (Listed.congr (fun name' hmem' => hlisted name' (by
        simp [hmem'])) fun name' hmem' => ?_) fun name' hmem' => ?_
      · rw [afterRevoke, refreshAll, roleMap_setRole hrec.upper, if_neg (hne name' hmem')]
      · rw [hrec.entry, if_neg fun heq => hne name' hmem' heq.1]
        exact hothers name' (by simp [hmem']) (hne name' hmem')
  have hroles : ∀ name', RoleFree (afterRevoke st key name role (p.revoke (objectPrivs key)))
      key name' := by
    intro name'
    refine ⟨fun p' hp' => ?_⟩
    rw [hrec.entry] at hp'
    by_cases hn : name' = name
    · rw [if_pos ⟨hn, rfl⟩, some.injEq] at hp'
      rw [← hp']
      exact hempty
    · rw [if_neg fun heq => hn heq.1] at hp'
      by_cases hdefault : IsDefaultRole name'
      · exact (hdefaults name' hdefault).entry p' hp'
      · rw [h.others name' hn hdefault] at hp'
        cases hp'
  rw [LeavesNothing, hrun]
  refine ⟨hroles, fun userId => ⟨fun e he => ?_⟩, fun key' hne name' => ?_,
    fun key' hne userId => ?_⟩
  · by_cases hmem : userId ∈ role.userRole
    · obtain ⟨u, hu, hin⟩ := hrec.mem_iff.1 hmem
      rw [hrec.userEntry_of_mem _ hu hmem (hall userId hmem)] at he
      obtain ⟨q, hq, rfl⟩ := map_eq_some_iff.1 he
      exact unionAt_free (fun name' _ => (hroles name').entry) q hq
    · rw [userEntry_afterRevoke hmem] at he
      exact (h.rest userId fun hin => hmem (hrec.mem_iff.2 hin)).entry e he
  · rw [hrec.entry, if_neg fun heq => hne heq.2]
  · by_cases hmem : userId ∈ role.userRole
    · obtain ⟨u, hu, hin⟩ := hrec.mem_iff.1 hmem
      rw [hrec.userEntry_of_mem _ hu hmem (hall userId hmem), hrec.union_other _ hne, userEntry,
        hu, bind_some, h.members userId u hu hin key' hne]
    · rw [userEntry_afterRevoke hmem]

end

/-- Nothing is left just where one role at most, no default role among them,
has a record of the object. -/
theorem revokeDBObjectPrivilegesFromAllRoles_iff {st : SysCatalog} (hst : Linked st)
    {names : List Name} (hnames : RoleNames st names) (key : DBObjectKey) :
    LeavesNothing key names st ↔ AtMostOneHolder st key := by
  refine ⟨atMostOneHolder_of_cleared hst hnames, ?_⟩
  rintro ⟨hdefaults, hunheld | ⟨name, honly⟩⟩
  · exact cleared_of_unheld hst hnames hdefaults hunheld
  · exact cleared_of_onlyHolder hst hnames hdefaults honly

-- ======== readers

theorem readers_linked {names : List Name} (hupper : ∀ name ∈ names, toUpper name = name) :
    Linked (readers names) := by
  have hrole : ∀ name role, (readers names).roleMap name = some role →
      name ∈ names ∧ role = ⟨[(tableKey, ⟨true, false, false, false⟩)], false, []⟩ := by
    intro name role h
    unfold readers at h
    dsimp only at h
    split at h
    next hmem => exact ⟨contains_iff_mem.1 hmem, (some.inj h).symm⟩
    next => cases h
  refine ⟨⟨?_, ?_, nofun, nofun⟩, fun userId name => ⟨nofun, ?_⟩, ?_⟩
  · intro name role h
    rw [(hrole name role h).2]
    exact nodup_singleton _
  · intro name role h
    rw [(hrole name role h).2]
    exact nodup_nil
  · rintro ⟨role, h, hmem⟩
    rw [(hrole name role h).2] at hmem
    cases hmem
  · exact fun name role h => hupper name (hrole name role h).1

theorem readers_names {names : List Name} (hnodup : names.Nodup)
    (hdefault : ∀ name ∈ names, ¬ IsDefaultRole name) : RoleNames (readers names) names := by
  refine ⟨hnodup, fun name => ?_⟩
  unfold readers
  dsimp only
  split
  next hmem =>
    rw [contains_iff_mem] at hmem
    exact iff_of_true hmem ⟨⟨_, rfl⟩, hdefault name hmem⟩
  next hnot => exact iff_of_false (mt contains_iff_mem.2 hnot) fun h => nomatch h.1

/-- A single reader loses the table. -/
theorem revokeDBObjectPrivilegesFromAllRoles_reader :
    LeavesNothing tableKey [['A']] (readers [['A']]) := by
  have hdefault : ∀ name ∈ [['A']], ¬ IsDefaultRole name := by
    unfold IsDefaultRole
    decide
  refine (revokeDBObjectPrivilegesFromAllRoles_iff (readers_linked (by decide))
    (readers_names (by decide) hdefault) tableKey).2 ⟨?_, .inr ⟨['A'], ?_⟩⟩
  · rintro name (rfl | rfl) <;> exact ⟨by decide⟩
  · refine ⟨hdefault _ (by simp), ⟨⟨true, false, false, false⟩, rfl, rfl, rfl⟩, ?_, nofun,
      fun userId _ => ⟨nofun⟩⟩
    intro name hne _
    rw [entryAt, readers]
    dsimp only
    rw [if_neg (by simpa using hne)]
    rfl

/-- Of two readers, the second one keeps the table. -/
theorem revokeDBObjectPrivilegesFromAllRoles_second :
    Linked (readers [['A'], ['B']])
      ∧ RoleNames (readers [['A'], ['B']]) [['A'], ['B']]
      ∧ ¬ LeavesNothing tableKey [['A'], ['B']] (readers [['A'], ['B']]) := by
  have hdefault : ∀ name ∈ [['A'], ['B']], ¬ IsDefaultRole name := by
    unfold IsDefaultRole
    decide
  refine ⟨readers_linked (by decide), readers_names (by decide) hdefault, fun h => ?_⟩
  have hrun : ∃ st, SysCatalog.revokeDBObjectPrivilegesFromAllRoles [['A'], ['B']] tableKey
      (readers [['A'], ['B']]) = .ok () st
        ∧ entryAt st.roleMap ['B'] tableKey = some ⟨true, false, false, false⟩ :=
    ⟨_, rfl, by decide⟩
  obtain ⟨st, hst, hentry⟩ := hrun
  rw [LeavesNothing, hst] at h
  have hempty := (h.roles ['B']).entry _ hentry
  revert hempty
  decide

end Compass.Catalog
