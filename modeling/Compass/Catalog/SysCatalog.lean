/-
Privileges on database objects, and the roles that hold them
(Catalog/DBObject.{h,cpp}, Catalog/Role.{h,cpp}).

A `GroupRole` holds the privileges that were granted to it, a `UserRole`
those of a user, put together from the user's group roles. The second is
recomputed by `updatePrivileges` each time something changes: all its
entries are marked as not valid, the group roles are gone through, and
what is still not valid then is erased. The entry is erased through the
iterator of the loop, which is then incremented: that is not defined, and
has no result here.

A role is referred to by a pointer, which is in the map of all roles from
the role's creation to its deletion; the name stands for it here, and the
id of a user for the pointer to the user's role. The sets of pointers are
lists without repetitions.

The commands on users, roles and privileges (`SysCatalog`,
Catalog/Catalog.cpp), with privileges on.

The table of the users is in a database that is rolled back when a command
throws; the maps of the roles are not. A command that throws half way
leaves them as they are then.

A database object is given by its key, which `loadKey` finds by name; the
parameter `currentDb` is the key of the system database.
-/
import Compass.Lib.Bytes
import Compass.Lib.Results
import Compass.Lib.StdMap

namespace Compass.Catalog

/-- A name of a role or of a user. -/
abbrev Name := List Char

-- ======== privileges

structure AccessPrivileges where
  select : Bool
  insert : Bool
  create : Bool
  truncate : Bool
deriving DecidableEq, Repr

namespace AccessPrivileges

def none : AccessPrivileges := ⟨false, false, false, false⟩

def all : AccessPrivileges := ⟨true, true, true, true⟩

def allNoDb : AccessPrivileges := ⟨true, true, false, true⟩

def hasAny (p : AccessPrivileges) : Bool :=
  p.select || p.insert || p.create || p.truncate

/-- `DBObject::updatePrivileges`. -/
def union (p q : AccessPrivileges) : AccessPrivileges :=
  ⟨p.select || q.select, p.insert || q.insert, p.create || q.create, p.truncate || q.truncate⟩

/-- `DBObject::revokePrivileges`. -/
def revoke (p q : AccessPrivileges) : AccessPrivileges :=
  ⟨p.select && !q.select, p.insert && !q.insert, p.create && !q.create, p.truncate && !q.truncate⟩

/-- Every requested privilege is there. -/
def covers (real requested : AccessPrivileges) : Bool :=
  !((requested.select && !real.select) || (requested.insert && !real.insert)
    || (requested.create && !real.create) || (requested.truncate && !real.truncate))

end AccessPrivileges

-- ======== keys

structure DBObjectKey where
  dbObjectType : Int
  dbId : Int
  tableId : Int
  columnId : Int
deriving DecidableEq, Repr

/-- The memory that `operator<` compares. -/
def DBObjectKey.bytes (k : DBObjectKey) : List Nat :=
  LittleEndian.encodeAll 4 [k.dbObjectType, k.dbId, k.tableId, k.columnId]

instance : LT DBObjectKey := ⟨fun a b => a.bytes < b.bytes⟩

instance : DecidableLT DBObjectKey := fun a b =>
  inferInstanceAs (Decidable (a.bytes < b.bytes))

/-- `DatabaseDBObjectType`. -/
def databaseDBObjectType : Int := 1

-- ======== roles

structure GroupRole where
  dbObjectMap : List (DBObjectKey × AccessPrivileges)
  userPrivateRole : Bool
  /-- `userRole_`. -/
  userRole : List Nat

/-- An entry of a user: its privileges and `privsValid_`. -/
structure Entry where
  privs : AccessPrivileges
  privsValid : Bool
deriving DecidableEq, Repr

structure UserRole where
  dbObjectMap : List (DBObjectKey × Entry)
  /-- `groupRole_`. -/
  groupRole : List Name

namespace GroupRole

/-- The map part of `GroupRole::grantPrivileges`. -/
def grant (r : GroupRole) (key : DBObjectKey) (privs : AccessPrivileges) : GroupRole :=
  match StdMap.find? r.dbObjectMap key with
  | some p => { r with dbObjectMap := StdMap.set r.dbObjectMap key (p.union privs) }
  | none => { r with dbObjectMap := StdMap.set r.dbObjectMap key privs }

/-- The map part of `GroupRole::revokePrivileges`, where there is
something to revoke. -/
def revoke (r : GroupRole) (key : DBObjectKey) (privs : AccessPrivileges) : Option GroupRole :=
  match StdMap.find? r.dbObjectMap key with
  | some p =>
    if p.hasAny then
      some { r with dbObjectMap := StdMap.set r.dbObjectMap key (p.revoke privs) }
    else none
  | none => none

end GroupRole

namespace UserRole

/-- `hasEnoughPrivs`; an entry that is not valid fails a CHECK. -/
def hasEnoughPrivs (real : Option Entry) (requested : AccessPrivileges) : Option Bool :=
  match real with
  | some e => if e.privsValid then some (e.privs.covers requested) else none
  | none => some false

/-- The keys that are looked for, one after the other. -/
def levels (key : DBObjectKey) : List DBObjectKey :=
  [key, { key with columnId := -1 },
    ⟨databaseDBObjectType, key.dbId, -1, -1⟩, ⟨databaseDBObjectType, -1, -1, -1⟩]

def checkLevels (u : UserRole) (requested : AccessPrivileges) : List DBObjectKey → Option Bool
  | [] => some false
  | key :: keys => do
      if ← hasEnoughPrivs (StdMap.find? u.dbObjectMap key) requested then return true
      else checkLevels u requested keys

def checkPrivileges (u : UserRole) (key : DBObjectKey) (requested : AccessPrivileges) :
    Option Bool :=
  u.checkLevels requested (levels key)

/-- `UserRole::grantPrivileges`. -/
def grantPrivileges (u : UserRole) (key : DBObjectKey) (privs : AccessPrivileges) : UserRole :=
  match StdMap.find? u.dbObjectMap key with
  | some e =>
    { u with dbObjectMap := StdMap.set u.dbObjectMap key ⟨e.privs.union privs, true⟩ }
  | none => { u with dbObjectMap := StdMap.set u.dbObjectMap key ⟨privs, true⟩ }

/-- One entry of a group role in `updatePrivileges(Role*)`. -/
def updateEntry (m : List (DBObjectKey × Entry)) (kv : DBObjectKey × AccessPrivileges) :
    List (DBObjectKey × Entry) :=
  match StdMap.find? m kv.1 with
  | some e =>
    if e.privsValid then StdMap.set m kv.1 ⟨e.privs.union kv.2, true⟩
    else StdMap.set m kv.1 ⟨kv.2, true⟩
  | none => StdMap.set m kv.1 ⟨kv.2, true⟩

/-- `updatePrivileges(Role*)`. -/
def updateFrom (m : List (DBObjectKey × Entry)) (role : GroupRole) : List (DBObjectKey × Entry) :=
  role.dbObjectMap.foldl updateEntry m

/-- `updatePrivileges()`, over the roles there are; nothing where an entry
would have to be erased. -/
def updatePrivileges (roles : Name → Option GroupRole) (u : UserRole) : Option UserRole :=
  let unvalidated := u.dbObjectMap.map fun kv => (kv.1, { kv.2 with privsValid := false })
  let updated := u.groupRole.foldl
    (fun m name =>
      match roles name with
      | some role => updateFrom m role
      | none => m) unvalidated
  if updated.all fun kv => kv.2.privsValid then some { u with dbObjectMap := updated } else none

end UserRole


/-- `to_upper`. -/
def toUpper (name : Name) : Name := name.map Char.toUpper

def mapdRootUser : Name := "mapd".toList

def mapdDefaultRootUserRole : Name := "mapd_default_suser_role".toList

def mapdDefaultUserRole : Name := "mapd_default_user_role".toList

/-- A row of `mapd_users`. -/
structure UserMetadata where
  userId : Nat
  userName : Name
  isSuper : Bool
deriving DecidableEq, Repr

structure SysCatalog where
  users : List UserMetadata
  roleMap : Name → Option GroupRole
  userRoleMap : Nat → Option UserRole

/-- A new database. -/
def SysCatalog.init : SysCatalog :=
  ⟨[⟨0, mapdRootUser, true⟩], fun _ => none, fun _ => none⟩

abbrev Command := StateAction SysCatalog

namespace SysCatalog

variable (currentDb : DBObjectKey)

def getMetadataForUser (st : SysCatalog) (name : Name) : Option UserMetadata :=
  st.users.find? fun u => u.userName = name

def getMetadataForRole (st : SysCatalog) (name : Name) : Option GroupRole :=
  st.roleMap (toUpper name)

def setRole (name : Name) (role : GroupRole) (st : SysCatalog) : SysCatalog :=
  { st with roleMap := Function.update st.roleMap (toUpper name) (some role) }

def setUserRole (userId : Nat) (u : UserRole) (st : SysCatalog) : SysCatalog :=
  { st with userRoleMap := Function.update st.userRoleMap userId (some u) }

/-- The id that the database gives to a new row. -/
def nextUserId (st : SysCatalog) : Nat :=
  st.users.foldr (fun u n => max n (u.userId + 1)) 0

-- ======== role objects

/-- `UserRole::updatePrivileges` of a user. -/
def updateUser (userId : Nat) : Command Unit := do
  match (← StateAction.get).userRoleMap userId with
  | some u =>
    match u.updatePrivileges (← StateAction.get).roleMap with
    | some u => StateAction.modify (setUserRole userId u)
    | none => StateAction.undefined
  | none => StateAction.undefined

/-- `GroupRole::grantPrivileges`. -/
def groupGrant (name : Name) (role : GroupRole) (key : DBObjectKey) (privs : AccessPrivileges) :
    Command Unit := do
  StateAction.modify (setRole name (role.grant key privs))
  StateAction.forEach updateUser role.userRole

-- ======== commands

/-- The privileges of the object after the call, which are those of the
role then. -/
def grantDBObjectPrivileges (name : Name) (key : DBObjectKey) (privs : AccessPrivileges) :
    Command AccessPrivileges := do
  if name = mapdRootUser then
    StateAction.throw ("Request to grant privileges to " ++ String.ofList name
      ++ " failed because mapd root user has all privileges by default.")
  else
    match (← StateAction.get).getMetadataForRole name with
    | none =>
      StateAction.throw ("Request to grant privileges to " ++ String.ofList name
        ++ " failed because role or user with this name does not exist.")
    | some role =>
      groupGrant name role key privs
      return (StdMap.find? (role.grant key privs).dbObjectMap key).getD .none

def revokeDBObjectPrivileges (name : Name) (key : DBObjectKey) (privs : AccessPrivileges) :
    Command Unit := do
  if name = mapdRootUser then
    StateAction.throw ("Request to revoke privileges from " ++ String.ofList name
      ++ " failed because privileges can not be revoked from mapd root user.")
  else
    match (← StateAction.get).getMetadataForRole name with
    | none =>
      StateAction.throw ("Request to revoke privileges from " ++ String.ofList name
        ++ " failed because role or user with this name does not exist.")
    | some role =>
      match role.revoke key privs with
      | none =>
        StateAction.throw ("Can not revoke privileges because " ++ String.ofList (toUpper name)
          ++ " has no privileges to the object")
      | some role =>
        StateAction.modify (setRole name role)
        StateAction.forEach updateUser role.userRole

def createRole (name : Name) (userPrivateRole : Bool) : Command Unit := do
  if userPrivateRole = false ∧ ((← StateAction.get).getMetadataForUser name).isSome then
    StateAction.throw ("Role name " ++ String.ofList name
      ++ " is same as one of user names. Role and user names should be unique.")
  else if ((← StateAction.get).getMetadataForRole name).isSome then
    StateAction.throw ("CREATE ROLE " ++ String.ofList name
      ++ " failed because role with this name already exists.")
  else
    let role : GroupRole := ⟨[], userPrivateRole, []⟩
    StateAction.modify (setRole name role)
    groupGrant name role currentDb .none

/-- `delete` of a group role: it goes out of the role of each of its users. -/
def deleteGroupRole (name : Name) (role : GroupRole) : Command Unit :=
  StateAction.forEach
    (fun userId => do
      match (← StateAction.get).userRoleMap userId with
      | some u =>
        StateAction.modify (setUserRole userId
          { u with groupRole := u.groupRole.erase (toUpper name) })
        updateUser userId
      | none => StateAction.undefined)
    role.userRole

def dropRole (name : Name) : Command Unit := do
  match (← StateAction.get).getMetadataForRole name with
  | none => StateAction.abort
  | some role =>
    deleteGroupRole name role
    StateAction.modify fun st =>
      { st with roleMap := Function.update st.roleMap (toUpper name) none }

def grantRole (name userName : Name) : Command Unit := do
  match (← StateAction.get).getMetadataForRole name with
  | none =>
    StateAction.throw ("Request to grant role " ++ String.ofList name
      ++ " failed because role with this name does not exist.")
  | some role =>
    match (← StateAction.get).getMetadataForUser userName with
    | none =>
      StateAction.throw ("Request to grant role to user " ++ String.ofList userName
        ++ " failed because user with this name does not exist.")
    | some user =>
      -- a user without roles starts with a copy of the entries of this one
      let u := match (← StateAction.get).userRoleMap user.userId with
        | some u => u
        | none => ⟨role.dbObjectMap.map fun kv => (kv.1, ⟨kv.2, true⟩), []⟩
      StateAction.modify (setUserRole user.userId u)
      if toUpper name ∈ u.groupRole then return ()
      else
        StateAction.modify (setUserRole user.userId
          { u with groupRole := u.groupRole ++ [toUpper name] })
        StateAction.modify (setRole name
          { role with userRole := role.userRole.insert user.userId })
        updateUser user.userId

/-- `GroupRole::removeRole` for a user's role. -/
def removeMember (userId : Nat) (name : Name) (st : SysCatalog) : SysCatalog :=
  match st.roleMap name with
  | some role =>
    let role := { role with userRole := role.userRole.erase userId }
    { st with roleMap := Function.update st.roleMap name (some role) }
  | none => st

/-- `delete` of a user's role. -/
def deleteUserRole (userId : Nat) (u : UserRole) : Command Unit := do
  StateAction.forEach (fun name => StateAction.modify (removeMember userId name)) u.groupRole
  StateAction.modify fun st =>
    { st with userRoleMap := Function.update st.userRoleMap userId none }

def revokeRole (name userName : Name) : Command Unit := do
  match (← StateAction.get).getMetadataForRole name with
  | none =>
    StateAction.throw ("Request to revoke role " ++ String.ofList name
      ++ " failed because role with this name does not exist.")
  | some role =>
    match (← StateAction.get).getMetadataForUser userName with
    | none =>
      StateAction.throw ("Request to revoke role from user " ++ String.ofList userName
        ++ " failed because user with this name does not exist.")
    | some user =>
      match (← StateAction.get).userRoleMap user.userId with
      | some u =>
        if toUpper name ∈ u.groupRole then
          let u := { u with groupRole := u.groupRole.erase (toUpper name) }
          StateAction.modify (setUserRole user.userId u)
          StateAction.modify (setRole name
            { role with userRole := role.userRole.erase user.userId })
          updateUser user.userId
          if u.groupRole.length = 0 then deleteUserRole user.userId u
          else return ()
        else
          StateAction.throw ("Request to revoke role " ++ String.ofList name ++ " from user "
            ++ String.ofList userName
            ++ " failed because this role has not been granted to the user.")
      | none =>
        StateAction.throw ("Request to revoke role " ++ String.ofList name ++ " from user "
          ++ String.ofList userName
          ++ " failed because this role has not been granted to the user.")

def createDefaultMapdRoles : Command Unit := do
  if ((← StateAction.get).getMetadataForRole mapdDefaultUserRole).isNone then
    createRole currentDb mapdDefaultUserRole false
    let _ ← grantDBObjectPrivileges mapdDefaultUserRole currentDb .none
  if ((← StateAction.get).getMetadataForRole mapdDefaultRootUserRole).isNone then
    createRole currentDb mapdDefaultRootUserRole false
    let _ ← grantDBObjectPrivileges mapdDefaultRootUserRole currentDb .all
    grantRole mapdDefaultRootUserRole mapdRootUser

/-- The default role of a user, made first where the roles are missing. -/
def grantDefaultRole (user : Name) (isSuper : Bool) : Command Unit := do
  if ((← StateAction.get).getMetadataForRole mapdDefaultRootUserRole).isNone then
    createDefaultMapdRoles currentDb
  grantRole (if isSuper then mapdDefaultRootUserRole else mapdDefaultUserRole) user

def createUser (name : Name) (isSuper : Bool) : Command Unit := do
  let st ← StateAction.get
  if (st.getMetadataForUser name).isSome then
    StateAction.throw ("User " ++ String.ofList name ++ " already exists.")
  else if (st.getMetadataForRole name).isSome then
    StateAction.throw ("User name " ++ String.ofList name
      ++ " is same as one of role names. User and role names should be unique.")
  else
    StateAction.onThrow (fun st' => { st' with users := st.users }) do
      StateAction.modify fun st =>
        { st with users := st.users ++ [⟨st.nextUserId, name, isSuper⟩] }
      createRole currentDb name true
      let _ ← grantDBObjectPrivileges name currentDb (if isSuper then .all else .none)
      grantRole name name
      grantDefaultRole currentDb name isSuper

def dropUser (name : Name) : Command Unit := do
  match (← StateAction.get).getMetadataForUser name with
  | none => StateAction.throw ("User " ++ String.ofList name ++ " does not exist.")
  | some user =>
    dropRole name
    match (← StateAction.get).userRoleMap user.userId with
    | some u => deleteUserRole user.userId u
    | none => pure ()
    StateAction.modify fun st =>
      { st with users := st.users.filter fun u => u.userId ≠ user.userId }

/-- `createDBObject`, for the table with the given key. -/
def createDBObject (userName : Name) (key : DBObjectKey) : Command Unit := do
  match (← StateAction.get).getMetadataForUser userName with
  | none => pure ()
  | some user =>
    -- no need to grant to the root user
    let privs ←
      if user.userName ≠ mapdRootUser then
        grantDBObjectPrivileges user.userName key .allNoDb
      else pure .allNoDb
    if ((← StateAction.get).userRoleMap user.userId).isNone then
      grantDefaultRole currentDb user.userName user.isSuper
    match (← StateAction.get).userRoleMap user.userId with
    | some u => StateAction.modify (setUserRole user.userId (u.grantPrivileges key privs))
    | none => StateAction.undefined

end SysCatalog

-- ======== runs

inductive Op where
  | createUser (name : Name) (isSuper : Bool)
  | createRole (name : Name)
  | grantRole (name userName : Name)
  | revokeRole (name userName : Name)
  | grantPrivileges (name : Name) (key : DBObjectKey) (privs : AccessPrivileges)
  | revokePrivileges (name : Name) (key : DBObjectKey) (privs : AccessPrivileges)
  | createDBObject (userName : Name) (key : DBObjectKey)
  | dropRole (name : Name)
  | dropUser (name : Name)

def Op.exec (currentDb : DBObjectKey) : Op → Command Unit
  | .createUser name isSuper => SysCatalog.createUser currentDb name isSuper
  | .createRole name => SysCatalog.createRole currentDb name false
  | .grantRole name userName => SysCatalog.grantRole name userName
  | .revokeRole name userName => SysCatalog.revokeRole name userName
  | .grantPrivileges name key privs => do
      let _ ← SysCatalog.grantDBObjectPrivileges name key privs
  | .revokePrivileges name key privs => SysCatalog.revokeDBObjectPrivileges name key privs
  | .createDBObject userName key => SysCatalog.createDBObject currentDb userName key
  | .dropRole name => SysCatalog.dropRole name
  | .dropUser name => SysCatalog.dropUser name

/-- Commands one after the other, as long as they return. -/
def runOps (currentDb : DBObjectKey) : List Op → SysCatalog → Option SysCatalog
  | [], st => some st
  | op :: ops, st =>
    match op.exec currentDb st with
    | .ok _ st => runOps currentDb ops st
    | _ => none

-- ======== what is meant

/-- The privileges of two roles together, where one of them has the key. -/
def unionOption : Option AccessPrivileges → Option AccessPrivileges → Option AccessPrivileges
  | some p, some q => some (p.union q)
  | some p, none => some p
  | none, q => q

/-- The union of the entries for a key over some roles; nothing where none
of them has one. -/
def unionAt (roles : Name → Option GroupRole) (names : List Name) (key : DBObjectKey) :
    Option AccessPrivileges :=
  names.foldr
    (fun name acc =>
      unionOption ((roles name).bind fun role => StdMap.find? role.dbObjectMap key) acc) none

/-- What the user roles owe to the group roles. -/
structure Effective (st : SysCatalog) : Prop where
  /-- The entry of a user is the union over the user's roles. -/
  cached : ∀ userId u, st.userRoleMap userId = some u → ∀ key, StdMap.find? u.dbObjectMap key
      = (unionAt st.roleMap u.groupRole key).map fun p => ⟨p, true⟩
  /-- A user has a role just when the role has the user. -/
  mirror : ∀ userId name, (∃ u, st.userRoleMap userId = some u ∧ name ∈ u.groupRole)
      ↔ ∃ role, st.roleMap name = some role ∧ userId ∈ role.userRole
  /-- A request succeeds just when the union at one of the levels covers
  it. -/
  check : ∀ userId u, st.userRoleMap userId = some u → ∀ key requested, ∃ b,
    u.checkPrivileges key requested = some b
      ∧ (b = true ↔ ∃ level ∈ UserRole.levels key, ∃ p,
          unionAt st.roleMap u.groupRole level = some p ∧ p.covers requested = true)

/-- Every key of a role is also in another role of the user. -/
def StillHeld (st : SysCatalog) (u : UserRole) (name : Name) : Prop :=
  ∀ role, st.roleMap name = some role → ∀ key ∈ role.dbObjectMap.map Prod.fst,
    unionAt st.roleMap (u.groupRole.erase name) key ≠ none

/-- The command neither takes the last role with a key away from a user,
nor creates a table for a user without a role of his own. -/
def Op.Safe (st : SysCatalog) : Op → Prop
  | .revokeRole name userName => ∀ user u, st.getMetadataForUser userName = some user →
      st.userRoleMap user.userId = some u → toUpper name ∈ u.groupRole →
      StillHeld st u (toUpper name)
  | .dropRole name => ∀ role, st.getMetadataForRole name = some role →
      ∀ userId ∈ role.userRole, ∀ u, st.userRoleMap userId = some u →
      StillHeld st u (toUpper name)
  | .dropUser name => (st.getMetadataForUser name).isSome → ∀ role,
      st.getMetadataForRole name = some role →
      ∀ userId ∈ role.userRole, ∀ u, st.userRoleMap userId = some u →
      StillHeld st u (toUpper name)
  | .createDBObject userName _ => ∀ user, st.getMetadataForUser userName = some user →
      user.userName ≠ mapdRootUser
        ∧ (st.getMetadataForRole userName = none
          ∨ ∃ u, st.userRoleMap user.userId = some u ∧ toUpper userName ∈ u.groupRole)
  | _ => True

/-- The states of the runs whose commands are all of that kind, those left
by an exception included. -/
inductive Reached (currentDb : DBObjectKey) : SysCatalog → Prop where
  | init : Reached currentDb .init
  | ok {st st' : SysCatalog} {op : Op} : Reached currentDb st → op.Safe st →
      op.exec currentDb st = .ok () st' → Reached currentDb st'
  | threw {st st' : SysCatalog} {op : Op} {message : String} : Reached currentDb st →
      op.Safe st → op.exec currentDb st = .threw message st' → Reached currentDb st'

end Compass.Catalog
