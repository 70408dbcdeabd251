/-
The roles of the users through whole runs of commands.

A role that is taken from its users (`Dropping`) and a user that is taken
out of the roles (`Deleting`) leave the invariant again where every key
of the user is in another of the roles. `Op.Safe` asks for that, and that
a table is only made for a user with a role of his own; then no command
runs into an erased iterator, and the states reached are effective.
-/
import Compass.Catalog.Proofs.SysCatalog

namespace Compass.Catalog

open Outcome List Function
open StateAction SysCatalog

-- ======== dropping a role

/-- A role is being taken from its users, who do not need it for any of
their keys. -/
structure Dropping (name : Name) (todo : List Nat) (st : SysCatalog) : Prop where
  sets : Sets st
  nodup : todo.Nodup
  mirror : ∀ userId name', name' ≠ name → (HasRole st userId name' ↔ HasMember st name' userId)
  left : ∀ userId, HasRole st userId name ↔ userId ∈ todo
  cached : ∀ userId u, st.userRoleMap userId = some u → Cached st u
  still : ∀ userId ∈ todo, ∀ u, st.userRoleMap userId = some u → StillHeld st u name

variable {st : SysCatalog} {u : UserRole} {userId : Nat}
variable {name : Name}

theorem stillHeld_held (hcached : Cached st u) (hstill : StillHeld st u name) :
    Held st { u with groupRole := u.groupRole.erase name } := by
  intro key hkey
  obtain ⟨name', hname', hentry⟩ := unionAt_ne_none.mp (hcached.held key hkey)
  by_cases hn : name' = name
  · -- the role is gone, and another one has the key
    subst hn
    rw [entryAt] at hentry
    cases hrole : st.roleMap name' with
    | none =>
      rw [hrole] at hentry
      exact absurd rfl hentry
    | some role =>
      rw [hrole] at hentry
      refine hstill role hrole key ?_
      by_contra hnot
      apply hentry
      show StdMap.find? role.dbObjectMap key = none
      cases hfind' : StdMap.find? role.dbObjectMap key with
      | none => rfl
      | some p => exact absurd (mem_map_of_mem (StdMap.find?_eq_some hfind')) hnot
  · exact unionAt_ne_none.mpr ⟨name', (mem_erase_of_ne hn).mpr hname', hentry⟩

variable {E : SysCatalog → Prop}

/-- One user without the role. -/
theorem dropping_step {todo : List Nat} (h : Dropping (toUpper name) (userId :: todo) st) : ((do
      match (← StateAction.get).userRoleMap userId with
      | some u =>
        StateAction.modify (SysCatalog.setUserRole userId
          { u with groupRole := u.groupRole.erase (toUpper name) })
        SysCatalog.updateUser userId
      | none => StateAction.undefined : Command Unit) st).Meets
      (fun _ st' => Dropping (toUpper name) todo st') E := by
  obtain ⟨u, hu, hin⟩ := (h.left userId).mpr mem_cons_self
  have hnodup := h.sets.userGroups userId u hu
  have hheld := stillHeld_held (h.cached userId u hu)
    (h.still userId mem_cons_self u hu)
  obtain ⟨u', hupdate, hgroups, hkeys, hfind⟩ :=
    updatePrivileges_spec (u := { u with groupRole := u.groupRole.erase (toUpper name) })
      h.sets.roleKeys (h.sets.userKeys userId u hu) hheld
  rw [get_bind, hu]
  dsimp only
  rw [modify_bind]
  have hstep : updateUser userId (st.setUserRole userId
      { u with groupRole := u.groupRole.erase (toUpper name) })
      = .ok () (st.setUserRole userId u') := by
    unfold updateUser
    rw [get_bind, setUserRole_self]
    dsimp only
    rw [get_bind]
    have hsame : (st.setUserRole userId
      { u with groupRole := u.groupRole.erase (toUpper name) }).roleMap = st.roleMap := rfl
    rw [hsame, hupdate]
    show Outcome.ok () (setUserRole _ _ (setUserRole _ _ _)) = _
    unfold setUserRole
    simp
  rw [hstep]
  have hmem : ∀ name', HasRole (st.setUserRole userId u') userId name'
      ↔ name' ∈ u.groupRole.erase (toUpper name) := by
    intro name'
    unfold HasRole
    simp [hgroups]
  have hother : ∀ userId' ≠ userId, ∀ name',
      HasRole (st.setUserRole userId u') userId' name' ↔ HasRole st userId' name' := by
    intro userId' hid name'
    unfold HasRole
    rw [setUserRole_of_ne hid]
  have hnot : userId ∉ todo := (nodup_cons.mp h.nodup).1
  refine ⟨sets_setUserRole h.sets hkeys (hgroups ▸ hnodup.erase _),
    (nodup_cons.mp h.nodup).2, ?_, ?_, ?_, ?_⟩
  · intro userId' name' hn
    by_cases hid : userId' = userId
    · subst hid
      rw [hmem, mem_erase_of_ne hn]
      have hhas : name' ∈ u.groupRole ↔ HasRole st userId' name' := by
        unfold HasRole
        rw [hu]
        simp
      rw [hhas]
      exact h.mirror userId' name' hn
    · rw [hother userId' hid]
      exact h.mirror userId' name' hn
  · intro userId'
    by_cases hid : userId' = userId
    · subst hid
      rw [hmem]
      simp [hnodup.mem_erase_iff, hnot]
    · rw [hother userId' hid, h.left]
      simp [hid]
  · intro userId' v hv
    by_cases hid : userId' = userId
    · subst hid
      rw [setUserRole_self, Option.some.injEq] at hv
      rw [← hv]
      intro key
      rw [hfind, hgroups]
      rfl
    · rw [setUserRole_of_ne hid] at hv
      exact h.cached userId' v hv
  · intro userId' hmem' v hv
    have hid : userId' ≠ userId := fun heq => hnot (heq ▸ hmem')
    rw [setUserRole_of_ne hid] at hv
    exact h.still userId' (mem_cons_of_mem _ hmem') v hv

theorem dropRole_meets (h : Inv st) (name : Name)
    (hsafe : ∀ role, st.getMetadataForRole name = some role →
      ∀ userId ∈ role.userRole, ∀ u, st.userRoleMap userId = some u →
      StillHeld st u (toUpper name)) : (SysCatalog.dropRole name st).Meets (fun _ => Inv) E := by
  unfold dropRole
  rw [get_bind]
  unfold getMetadataForRole at hsafe ⊢
  cases hrole : st.roleMap (toUpper name) with
  | none => exact True.intro
  | some role =>
    have hstart : Dropping (toUpper name) role.userRole st := by
      refine ⟨h.sets, h.sets.roleUsers _ role hrole, fun userId name' _ => h.mirror userId name',
        fun userId => ?_, fun userId u hu => h.cached userId u hu (by simp), hsafe role hrole⟩
      rw [h.mirror]
      unfold HasMember
      rw [hrole]
      simp
    refine meets_bind ((meets_forEach (I := Dropping (toUpper name))
      (fun userId todo st' h' => dropping_step h') role.userRole hstart).mono
      (fun _ st' h' => ?_) fun _ hE => hE)
    -- nobody has the role any more
    have hnobody : ∀ userId u, st'.userRoleMap userId = some u → toUpper name ∉ u.groupRole :=
      fun userId u hu hin => absurd ((h'.left userId).mp ⟨u, hu, hin⟩) (by simp)
    have hroles : ∀ name' role', update st'.roleMap (toUpper name) none name'
        = some role' → st'.roleMap name' = some role' := by
      intro name' role' hr
      by_cases hn : name' = toUpper name
      · subst hn
        rw [update_self] at hr
        cases hr
      · rw [update_of_ne hn] at hr
        exact hr
    refine ⟨⟨fun name' role' hr => h'.sets.roleKeys name' role' (hroles name' role' hr),
      fun name' role' hr => h'.sets.roleUsers name' role' (hroles name' role' hr),
      h'.sets.userKeys, h'.sets.userGroups⟩, ?_, by simp, ?_, by simp⟩
    · intro userId name'
      by_cases hn : name' = toUpper name
      · subst hn
        constructor
        · rintro ⟨u, hu, hin⟩
          exact absurd hin (hnobody userId u hu)
        · rintro ⟨role', hr, -⟩
          dsimp only at hr
          rw [update_self] at hr
          cases hr
      · refine (h'.mirror userId name' hn).trans ?_
        unfold HasMember
        dsimp only
        rw [update_of_ne hn]
    · intro userId u hu _ key
      rw [h'.cached userId u hu key]
      congr 1
      refine unionAt_congr fun name' hname' => ?_
      have hn : name' ≠ toUpper name := fun heq => hnobody userId u hu (heq ▸ hname')
      rw [entryAt, entryAt]
      dsimp only
      rw [update_of_ne hn]

-- ======== deleting a user

/-- A user is being taken out of the roles. -/
structure Deleting (userId : Nat) (todo : List Name) (st : SysCatalog) : Prop where
  sets : Sets st
  nodup : todo.Nodup
  mirror : ∀ userId' ≠ userId, ∀ name, HasRole st userId' name ↔ HasMember st name userId'
  left : ∀ name, HasMember st name userId ↔ name ∈ todo
  cached : ∀ userId' u, st.userRoleMap userId' = some u → Cached st u

theorem deleting_step {todo : List Name} (h : Deleting userId (name :: todo) st) :
    Deleting userId todo (st.removeMember userId name) := by
  obtain ⟨role, hrole, hmem⟩ := (h.left name).mpr mem_cons_self
  have hnot : name ∉ todo := (nodup_cons.mp h.nodup).1
  have husers := h.sets.roleUsers name role hrole
  set role' : GroupRole := { role with userRole := role.userRole.erase userId } with hrole'
  have hstep : st.removeMember userId name
      = { st with roleMap := update st.roleMap name (some role') } := by
    unfold removeMember
    rw [hrole]
  rw [hstep]
  have hother : ∀ name' userId', userId' ≠ userId →
      (HasMember { st with roleMap := update st.roleMap name (some role') } name' userId'
        ↔ HasMember st name' userId') := by
    intro name' userId' hid
    unfold HasMember
    dsimp only
    by_cases hn : name' = name
    · subst hn
      rw [update_self, hrole]
      simp [hrole', mem_erase_of_ne hid]
    · rw [update_of_ne hn]
  have hroles : ∀ name' r, update st.roleMap name (some role') name' = some r →
      (r.dbObjectMap.map Prod.fst).Nodup ∧ r.userRole.Nodup := by
    intro name' r hr
    by_cases hn : name' = name
    · subst hn
      rw [update_self, Option.some.injEq] at hr
      rw [← hr]
      exact ⟨h.sets.roleKeys name' role hrole, husers.erase _⟩
    · rw [update_of_ne hn] at hr
      exact ⟨h.sets.roleKeys name' r hr, h.sets.roleUsers name' r hr⟩
  refine ⟨⟨fun name' r hr => (hroles name' r hr).1, fun name' r hr => (hroles name' r hr).2,
    h.sets.userKeys, h.sets.userGroups⟩, (nodup_cons.mp h.nodup).2, ?_, ?_, ?_⟩
  · intro userId' hid name'
    rw [hother name' userId' hid]
    exact h.mirror userId' hid name'
  · intro name'
    by_cases hn : name' = name
    · subst hn
      unfold HasMember
      simp [hrole', husers.mem_erase_iff, hnot]
    · have hmember := h.left name'
      rw [mem_cons, or_iff_right hn] at hmember
      rw [← hmember]
      unfold HasMember
      dsimp only
      rw [update_of_ne hn]
  · intro userId' u hu key
    rw [h.cached userId' u hu key]
    congr 1
    refine unionAt_congr fun name' _ => ?_
    rw [entryAt, entryAt]
    dsimp only
    by_cases hn : name' = name
    · subst hn
      rw [update_self, hrole]
      rfl
    · rw [update_of_ne hn]

section

variable (h : Inv st)
include h

theorem deleteUserRole_meets {u' : UserRole} (hu : st.userRoleMap userId = some u)
    (hgroups : u'.groupRole = u.groupRole) :
    (SysCatalog.deleteUserRole userId u' st).Meets (fun _ => Inv) E := by
  unfold deleteUserRole
  rw [hgroups]
  have hstart : Deleting userId u.groupRole st := by
    refine ⟨h.sets, h.sets.userGroups userId u hu, fun userId' _ name => h.mirror userId' name,
      fun name => ?_, fun userId' v hv => h.cached userId' v hv (by simp)⟩
    rw [← h.mirror]
    unfold HasRole
    rw [hu]
    simp
  have hloop : (forEach
      (fun name => StateAction.modify (removeMember userId name)) u.groupRole st).Meets
        (fun _ => Deleting userId []) E := by
    refine meets_forEach (I := Deleting userId) (fun name todo st' h' => ?_) u.groupRole hstart
    exact deleting_step h'
  refine meets_bind (hloop.mono (fun _ st' h' => ?_) fun _ hE => hE)
  have husers : ∀ userId' v, update st'.userRoleMap userId none userId' = some v →
      userId' ≠ userId ∧ st'.userRoleMap userId' = some v := by
    intro userId' v hv
    by_cases hid : userId' = userId
    · subst hid
      rw [update_self] at hv
      cases hv
    · rw [update_of_ne hid] at hv
      exact ⟨hid, hv⟩
  refine ⟨⟨h'.sets.roleKeys, h'.sets.roleUsers,
    fun userId' v hv => h'.sets.userKeys userId' v (husers userId' v hv).2,
    fun userId' v hv => h'.sets.userGroups userId' v (husers userId' v hv).2⟩, ?_, by simp,
    fun userId' v hv _ => h'.cached userId' v (husers userId' v hv).2, by simp⟩
  intro userId' name
  by_cases hid : userId' = userId
  · subst hid
    constructor
    · rintro ⟨v, hv, -⟩
      exact absurd rfl (husers userId' v hv).1
    · intro hmem
      exact absurd ((h'.left name).mp hmem) (by simp)
  · refine Iff.trans ?_ (h'.mirror userId' hid name)
    unfold HasRole
    dsimp only
    rw [update_of_ne hid]

-- ======== revoking a role

theorem revokeRole_meets (name userName : Name) (hsafe : (Op.revokeRole name userName).Safe st) :
    (SysCatalog.revokeRole name userName st).Meets (fun _ => Inv) Inv := by
  unfold revokeRole
  rw [get_bind]
  unfold getMetadataForRole
  cases hrole : st.roleMap (toUpper name) with
  | none => exact h
  | some role =>
    dsimp only
    rw [get_bind]
    cases huser : st.getMetadataForUser userName with
    | none => exact h
    | some user =>
      dsimp only
      rw [get_bind]
      cases hu : st.userRoleMap user.userId with
      | none => exact h
      | some u =>
        dsimp only
        by_cases hin : toUpper name ∈ u.groupRole
        · rw [if_pos hin, modify_bind, modify_bind]
          have hcached := h.cached _ u hu (by simp)
          have hheld := stillHeld_held hcached (hsafe user u huser hu hin)
          have hnodup := h.sets.userGroups _ u hu
          have husers := h.sets.roleUsers _ role hrole
          have hpartial := @Inv.setMember st h name role
            { role with userRole := role.userRole.erase user.userId } user.userId
            { u with groupRole := u.groupRole.erase (toUpper name) } hrole rfl
            (husers.erase _) (h.sets.userKeys _ u hu) (hnodup.erase _)
            (fun userId' hid => mem_erase_of_ne hid)
            (fun name' hn => by
              rw [mem_erase_of_ne hn]
              unfold HasRole
              rw [hu]
              simp)
            (by simp [hnodup.mem_erase_iff, husers.mem_erase_iff]) hheld
          refine meets_bind ((updateUser_meets hpartial).mono (fun _ st' h' => ?_)
            fun _ hE => hE)
          split
          · -- the last role of the user
            have hgroups := h'.2.groups user.userId
            have hbefore : ((st.setUserRole user.userId
                { u with groupRole := u.groupRole.erase (toUpper name) }).setRole name
                { role with userRole := role.userRole.erase user.userId }).userRoleMap
                  user.userId
                = some { u with groupRole := u.groupRole.erase (toUpper name) } :=
              setUserRole_self _ _ _
            rw [hbefore] at hgroups
            obtain ⟨v, hv, hvg⟩ := Option.map_eq_some_iff.mp hgroups
            exact deleteUserRole_meets h'.1 hv hvg.symm
          · exact h'.1
        · rw [if_neg hin]
          exact h

-- ======== users and defaults

theorem meets_when {b : Bool} {m : Command Unit} (hm : (m st).Meets (fun _ => Inv) Inv) :
    ((if b then m else pure ()) st).Meets (fun _ => Inv) Inv := by
  split
  · exact hm
  · exact h

variable (currentDb : DBObjectKey)

theorem createDefaultMapdRoles_meets :
    (SysCatalog.createDefaultMapdRoles currentDb st).Meets (fun _ => Inv) Inv := by
  have hroot : ∀ st, Inv st → ((do
      createRole currentDb mapdDefaultRootUserRole false
      let _ ← grantDBObjectPrivileges mapdDefaultRootUserRole currentDb .all
      grantRole mapdDefaultRootUserRole mapdRootUser : Command Unit) st).Meets
      (fun _ => Inv) Inv := by
    intro st h
    refine meets_bind ((createRole_meets h currentDb _ false).mono (fun _ st h => ?_)
      fun _ hE => hE)
    refine meets_bind ((grantDBObjectPrivileges_meets h _ currentDb _).mono (fun _ st h => ?_)
      fun _ hE => hE)
    exact grantRole_meets h.1 _ _
  have hlast : ∀ st, Inv st → ((do
      if ((← StateAction.get).getMetadataForRole mapdDefaultRootUserRole).isNone then
        createRole currentDb mapdDefaultRootUserRole false
        let _ ← grantDBObjectPrivileges mapdDefaultRootUserRole currentDb .all
        grantRole mapdDefaultRootUserRole mapdRootUser : Command Unit) st).Meets
      (fun _ => Inv) Inv := by
    intro st h
    exact meets_when h (hroot st h)
  unfold createDefaultMapdRoles
  rw [get_bind]
  split
  · refine meets_bind ((createRole_meets h currentDb _ false).mono (fun _ st h => ?_)
      fun _ hE => hE)
    refine meets_bind ((grantDBObjectPrivileges_meets h _ currentDb _).mono (fun _ st h => ?_)
      fun _ hE => hE)
    exact hlast st h.1
  · exact hlast st h

theorem grantDefaultRole_meets (user : Name) (isSuper : Bool) :
    (SysCatalog.grantDefaultRole currentDb user isSuper st).Meets (fun _ => Inv) Inv := by
  unfold grantDefaultRole
  rw [get_bind]
  split
  · exact meets_bind ((createDefaultMapdRoles_meets h currentDb).mono
      (fun _ st h => grantRole_meets h _ _) fun _ hE => hE)
  · exact grantRole_meets h _ _

/-- The table of the users is not part of it. -/
theorem Inv.setUsers (users : List UserMetadata) : Inv { st with users := users } :=
  ⟨⟨h.sets.roleKeys, h.sets.roleUsers, h.sets.userKeys, h.sets.userGroups⟩, h.mirror, h.present,
    h.cached, h.held⟩

theorem createUser_meets (name : Name) (isSuper : Bool) :
    (SysCatalog.createUser currentDb name isSuper st).Meets (fun _ => Inv) Inv := by
  unfold createUser
  rw [get_bind]
  split
  · exact h
  · split
    · exact h
    · apply meets_onThrow
      have hkeep : ∀ st', Inv st' → Inv { st' with users := st.users } :=
        fun st' h' => h'.setUsers _
      rw [modify_bind]
      refine meets_bind ((createRole_meets (h.setUsers _) currentDb name true).mono
        (fun _ st h => ?_) hkeep)
      refine meets_bind ((grantDBObjectPrivileges_meets h name currentDb _).mono
        (fun _ st h => ?_) hkeep)
      refine meets_bind ((grantRole_meets h.1 name name).mono (fun _ st h => ?_) hkeep)
      exact (grantDefaultRole_meets h currentDb name isSuper).mono (fun _ _ h => h) hkeep

theorem dropUser_meets (name : Name) (hsafe : (Op.dropUser name).Safe st) :
    (SysCatalog.dropUser name st).Meets (fun _ => Inv) Inv := by
  unfold dropUser
  rw [get_bind]
  cases huser : st.getMetadataForUser name with
  | none => exact h
  | some user =>
    refine meets_bind ((dropRole_meets h name (hsafe (by rw [huser]; rfl))).mono
      (fun _ st' h' => ?_) fun _ hE => hE)
    rw [get_bind]
    cases hu : st'.userRoleMap user.userId with
    | none => exact Inv.setUsers h' _
    | some u =>
      exact meets_bind ((deleteUserRole_meets h' hu rfl).mono
        (fun _ st'' h'' => Inv.setUsers h'' _) fun _ hE => hE)

-- ======== creating a table

/-- A user's map changes, and not what it says. -/
theorem Inv.setUserRole {u' : UserRole} (hu : st.userRoleMap userId = some u)
    (hgroups : u'.groupRole = u.groupRole) (hkeys : (u'.dbObjectMap.map Prod.fst).Nodup)
    (hfind : ∀ key, StdMap.find? u'.dbObjectMap key = StdMap.find? u.dbObjectMap key) :
    Inv (st.setUserRole userId u') := by
  refine ⟨sets_setUserRole h.sets hkeys (hgroups ▸ h.sets.userGroups userId u hu), ?_, by simp, ?_,
    by simp⟩
  · intro userId' name
    rw [hasRole_setUserRole hu hgroups]
    exact h.mirror userId' name
  · intro userId' v hv _
    by_cases hid : userId' = userId
    · subst hid
      rw [setUserRole_self, Option.some.injEq] at hv
      rw [← hv]
      intro key
      rw [hfind, hgroups]
      exact h.cached userId' u hu (by simp) key
    · rw [setUserRole_of_ne hid] at hv
      exact h.cached userId' v hv (by simp)

/-- The privileges that a role of the user has anyway. -/
theorem Inv.grantHeld (hu : st.userRoleMap userId = some u)
    (hname : name ∈ u.groupRole) {key : DBObjectKey} {p : AccessPrivileges}
    (hp : entryAt st.roleMap name key = some p) :
    Inv (st.setUserRole userId (u.grantPrivileges key p)) := by
  have hkeys := h.sets.userKeys userId u hu
  obtain ⟨q, hq, habsorbs⟩ := unionAt_absorbs hname hp
  have hcached : StdMap.find? u.dbObjectMap key = some ⟨q, true⟩ := by
    rw [h.cached userId u hu (by simp) key, hq]
    rfl
  have hgrant : u.grantPrivileges key p
      = { u with dbObjectMap := StdMap.set u.dbObjectMap key ⟨q, true⟩ } := by
    unfold UserRole.grantPrivileges
    rw [hcached]
    dsimp only
    rw [habsorbs]
  rw [hgrant]
  refine h.setUserRole hu rfl (StdMap.nodup_set hkeys _ _) fun key' => ?_
  rw [StdMap.find?_set hkeys]
  split
  · rename_i heq
    rw [heq, hcached]
  · rfl

theorem createDBObject_meets (userName : Name)
    (key : DBObjectKey) (hsafe : (Op.createDBObject userName key).Safe st) :
    (SysCatalog.createDBObject currentDb userName key st).Meets (fun _ => Inv) Inv := by
  unfold createDBObject
  rw [get_bind]
  cases huser : st.getMetadataForUser userName with
  | none => exact h
  | some user =>
    dsimp only
    obtain ⟨hroot, hown⟩ := hsafe user huser
    have hname : user.userName = userName := by
      have hfound := find?_some huser
      simpa using hfound
    rw [if_pos hroot, hname]
    refine meets_bind ((grantDBObjectPrivileges_meets h userName key .allNoDb).mono
      (fun p st' h' => ?_) fun _ hE => hE)
    obtain ⟨hinv, role, hrole, hsame, hfind⟩ := h'
    rcases hown with hnone | ⟨u, hu, hin⟩
    · unfold getMetadataForRole at hnone
      rw [hrole] at hnone
      cases hnone
    · -- the role of the user has what the user gets
      have hgroups := hsame.groups user.userId
      have hbefore : (st.setRole userName (role.grant key .allNoDb)).userRoleMap user.userId
          = some u := hu
      rw [hbefore] at hgroups
      obtain ⟨v, hv, hvg⟩ := Option.map_eq_some_iff.mp hgroups
      have hentry : entryAt st'.roleMap (toUpper userName) key = some p := by
        rw [hsame.roleMap, entryAt_setRole_self, hfind]
      rw [get_bind, hv]
      show ((StateAction.get >>= _ : Command Unit) st').Meets _ _
      rw [get_bind, hv]
      exact hinv.grantHeld hv (hvg ▸ hin) hentry

-- ======== runs

theorem exec_meets {op : Op} (hsafe : op.Safe st) :
    (op.exec currentDb st).Meets (fun _ => Inv) Inv := by
  cases op with
  | createUser name isSuper => exact createUser_meets h currentDb name isSuper
  | createRole name => exact createRole_meets h currentDb name false
  | grantRole name userName => exact grantRole_meets h name userName
  | revokeRole name userName => exact revokeRole_meets h name userName hsafe
  | grantPrivileges name key privs =>
    exact meets_bind ((grantDBObjectPrivileges_meets h name key privs).mono
      (fun _ _ h' => h'.1) fun _ hE => hE)
  | revokePrivileges name key privs => exact revokeDBObjectPrivileges_meets h name key privs
  | createDBObject userName key => exact createDBObject_meets h currentDb userName key hsafe
  | dropRole name => exact dropRole_meets h name hsafe
  | dropUser name => exact dropUser_meets h name hsafe

end

theorem inv_init : Inv .init where
  sets := ⟨nofun, nofun, nofun, nofun⟩
  mirror userId name := by
    constructor
    · rintro ⟨u, hu, -⟩
      cases hu
    · rintro ⟨role, hrole, -⟩
      cases hrole
  present := by simp
  cached := nofun
  held := nofun

theorem Reached.inv {currentDb : DBObjectKey} (h : Reached currentDb st) :
    Inv st := by
  induction h with
  | init => exact inv_init
  | ok _ hsafe hexec ih | threw _ hsafe hexec ih =>
    have hmeets := exec_meets ih currentDb hsafe
    rw [hexec] at hmeets
    exact hmeets

/-- The levels are looked at until one of them covers the request. -/
theorem checkLevels_spec (h : Cached st u) (requested : AccessPrivileges)
    (keys : List DBObjectKey) :
    ∃ b, u.checkLevels requested keys = some b
      ∧ (b = true ↔ ∃ level ∈ keys, ∃ p,
          unionAt st.roleMap u.groupRole level = some p ∧ p.covers requested = true) := by
  induction keys with
  | nil => exact ⟨false, rfl, by simp⟩
  | cons key keys ih =>
    obtain ⟨b, hb, hiff⟩ := ih
    unfold UserRole.checkLevels UserRole.hasEnoughPrivs
    rw [h key]
    cases hunion : unionAt st.roleMap u.groupRole key with
    | none =>
      refine ⟨b, by simpa using hb, ?_⟩
      rw [hiff]
      simp [hunion]
    | some p =>
      cases hcovers : p.covers requested with
      | true => exact ⟨true, by simp [hcovers], by simp [hunion, hcovers]⟩
      | false =>
        refine ⟨b, by simpa [hcovers] using hb, ?_⟩
        rw [hiff]
        simp [hunion, hcovers]

theorem Inv.effective (h : Inv st) : Effective st where
  cached userId u hu := h.cached userId u hu (by simp)
  mirror := h.mirror
  check _ u hu key requested :=
    checkLevels_spec (h.cached _ u hu (by simp)) requested (UserRole.levels key)

/-- In every run of such commands the privileges are effective, and the
next such command has a defined behaviour. -/
theorem reached_effective {currentDb : DBObjectKey} {st : SysCatalog} (h : Reached currentDb st) :
    Effective st ∧ ∀ op : Op, op.Safe st → op.exec currentDb st ≠ .undefined := by
  refine ⟨h.inv.effective, fun op hsafe hundefined => ?_⟩
  have hmeets := exec_meets h.inv currentDb hsafe
  rw [hundefined] at hmeets
  exact hmeets

/-- A user with a role of his own and the default role, whose own role
has a table. -/
theorem joe_effective : ∃ st, Reached ⟨1, 1, -1, -1⟩ st
    ∧ (st.userRoleMap 1).map (fun u =>
        (u.groupRole, StdMap.find? u.dbObjectMap ⟨2, 1, 7, -1⟩))
      = some (["JOE".toList, "MAPD_DEFAULT_USER_ROLE".toList], some ⟨.allNoDb, true⟩)
    ∧ Effective st := by
  have hreached : Reached ⟨1, 1, -1, -1⟩ _ :=
    @Reached.ok _ _ _ (.grantPrivileges "joe".toList ⟨2, 1, 7, -1⟩ .allNoDb)
      (@Reached.ok _ _ _ (.createUser "joe".toList false) .init True.intro rfl) True.intro rfl
  exact ⟨_, hreached, by decide +kernel, (reached_effective hreached).1⟩

/-- A table is made for a user whose own role was revoked: the user keeps
privileges that none of his roles has. A role is revoked that alone has a
key: the entry is erased through the iterator of the loop. -/
theorem revoked_not_effective :
    (((runOps ⟨1, 1, -1, -1⟩
        [.createUser "joe".toList false, .revokeRole "joe".toList "joe".toList,
          .createDBObject "joe".toList ⟨2, 1, 7, -1⟩] .init).bind fun st =>
      (st.userRoleMap 1).map fun u =>
        (StdMap.find? u.dbObjectMap ⟨2, 1, 7, -1⟩, unionAt st.roleMap u.groupRole ⟨2, 1, 7, -1⟩,
          u.checkPrivileges ⟨2, 1, 7, -1⟩ .allNoDb))
      = some (some ⟨.allNoDb, true⟩, none, some true))
    ∧ ∃ st, runOps ⟨1, 1, -1, -1⟩
        [.createUser "joe".toList false, .createRole "r".toList,
          .grantPrivileges "r".toList ⟨2, 1, 7, -1⟩ .allNoDb,
          .grantRole "r".toList "joe".toList] .init = some st
      ∧ Op.exec ⟨1, 1, -1, -1⟩ (.revokeRole "r".toList "joe".toList) st = .undefined := by
  exact ⟨by decide +kernel, _, rfl, rfl⟩

end Compass.Catalog
