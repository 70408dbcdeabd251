/-
Revoking an object from all roles, as a table or a database is dropped
(`revokeDBObjectPrivilegesFromAllRoles_unsafe`, Catalog/Catalog.cpp).

One object goes through the loop. What it holds is what the next role loses,
and after a role has lost it the object holds what the role has left: nothing
for the role that held only what the object can have, so the role after it
loses nothing. A role whose record is empty ends the loop with an exception,
and the default roles are not gone through at all.

The names of the roles are those of `getRoles(true, true, 0)`, in any order.
The state is any with the two-way links between roles and users in place; the
entries of the users may be stale.
-/
import Compass.Catalog.Proofs.SysCatalog

namespace Compass.Catalog

-- ======== the loop

/-- The privileges that the object holds at first. -/
def objectPrivs (key : DBObjectKey) : AccessPrivileges :=
  if key.dbObjectType = databaseDBObjectType then .all else .allNoDb

namespace SysCatalog

def revokeFromRoles (key : DBObjectKey) : List Name → AccessPrivileges → Command Unit
  | [], _ => pure ()
  | name :: names, privs => do
      match (← StateAction.get).getMetadataForRole name with
      | none => StateAction.abort
      | some role =>
        if (StdMap.find? role.dbObjectMap key).isSome then
          revokeDBObjectPrivileges name key privs
          -- the object is set to what is left to the role
          match (← StateAction.get).getMetadataForRole name with
          | none => StateAction.abort
          | some role =>
            revokeFromRoles key names ((StdMap.find? role.dbObjectMap key).getD .none)
        else revokeFromRoles key names privs

def revokeDBObjectPrivilegesFromAllRoles (names : List Name) (key : DBObjectKey) : Command Unit :=
  revokeFromRoles key names (objectPrivs key)

end SysCatalog

/-- A role that `getRoles` leaves out. -/
def IsDefaultRole (name : Name) : Prop :=
  name = toUpper mapdDefaultRootUserRole ∨ name = toUpper mapdDefaultUserRole

structure RoleNames (st : SysCatalog) (names : List Name) : Prop where
  nodup : names.Nodup
  mem : ∀ name, name ∈ names ↔ (∃ role, st.roleMap name = some role) ∧ ¬ IsDefaultRole name

/-- The links are in place, and the roles are under their names. -/
structure Linked (st : SysCatalog) : Prop where
  sets : Sets st
  mirror : ∀ userId name, HasRole st userId name ↔ HasMember st name userId
  upper : ∀ name role, st.roleMap name = some role → toUpper name = name

-- ======== what is meant

/-- The entry of a user for a key. -/
def userEntry (st : SysCatalog) (userId : Nat) (key : DBObjectKey) : Option Entry :=
  (st.userRoleMap userId).bind fun u => StdMap.find? u.dbObjectMap key

structure RoleFree (st : SysCatalog) (key : DBObjectKey) (name : Name) : Prop where
  entry : ∀ p, entryAt st.roleMap name key = some p → p.hasAny = false

structure UserFree (st : SysCatalog) (key : DBObjectKey) (userId : Nat) : Prop where
  entry : ∀ e, userEntry st userId key = some e → e.privs.hasAny = false

/-- From one state to another, nobody is left with a privilege on the object,
and for other objects everybody has what they had. -/
structure Cleared (key : DBObjectKey) (st st' : SysCatalog) : Prop where
  roles : ∀ name, RoleFree st' key name
  users : ∀ userId, UserFree st' key userId
  otherRoles : ∀ key' ≠ key, ∀ name, entryAt st'.roleMap name key' = entryAt st.roleMap name key'
  otherUsers : ∀ key' ≠ key, ∀ userId, userEntry st' userId key' = userEntry st userId key'

def LeavesNothing (key : DBObjectKey) (names : List Name) (st : SysCatalog) : Prop :=
  match SysCatalog.revokeDBObjectPrivilegesFromAllRoles names key st with
  | .ok () st' => Cleared key st st'
  | _ => False

/-- For other objects, the entries of a user are those of the user's roles. -/
def UpToDate (st : SysCatalog) (key : DBObjectKey) (u : UserRole) : Prop :=
  ∀ key' ≠ key, StdMap.find? u.dbObjectMap key'
    = (unionAt st.roleMap u.groupRole key').map fun p => ⟨p, true⟩

/-- The only role that is gone through and has a record. -/
structure OnlyHolder (st : SysCatalog) (key : DBObjectKey) (name : Name) : Prop where
  listed : ¬ IsDefaultRole name
  record : ∃ p, entryAt st.roleMap name key = some p ∧ p.hasAny = true
    ∧ (objectPrivs key).covers p = true
  others : ∀ name' ≠ name, ¬ IsDefaultRole name' → entryAt st.roleMap name' key = none
  members : ∀ userId u, st.userRoleMap userId = some u → name ∈ u.groupRole → UpToDate st key u
  rest : ∀ userId, ¬ HasRole st userId name → UserFree st key userId

structure Unheld (st : SysCatalog) (key : DBObjectKey) : Prop where
  roles : ∀ name, ¬ IsDefaultRole name → entryAt st.roleMap name key = none
  users : ∀ userId, UserFree st key userId

/-- The default roles have nothing, and at most one other role has a record. -/
def AtMostOneHolder (st : SysCatalog) (key : DBObjectKey) : Prop :=
  (∀ name, IsDefaultRole name → RoleFree st key name)
    ∧ (Unheld st key ∨ ∃ name, OnlyHolder st key name)

-- ======== a state

/-- A table. -/
def tableKey : DBObjectKey :=
  ⟨2, 1, 5, -1⟩

/-- Roles that may all read the table, and no users. -/
def readers (names : List Name) : SysCatalog where
  users := []
  roleMap := fun name =>
    if names.contains name then some ⟨[(tableKey, ⟨true, false, false, false⟩)], false, []⟩
    else none
  userRoleMap := fun _ => none

end Compass.Catalog
