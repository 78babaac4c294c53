/-! # Read permissions

Who may read a field.  A field without rules is for everyone; otherwise one rule must allow the
user, who may be logged out (`none`). -/

namespace ShapedQuery

/-- A condition on the user. -/
inductive Predicate where
  | loggedIn
  | admin
  deriving DecidableEq

/-- A rule that allows some users. -/
inductive Permission where
  | group (name : String)
  | predicate (p : Predicate)
  deriving DecidableEq

/-- A user who is logged in. -/
structure User where
  id : String
  groups : List String
  isAdmin : Bool
  deriving DecidableEq

namespace Permission

/-- Everyone, logged in or not. -/
def guests : String := "guests"

/-- Everyone who is logged in. -/
def members : String := "members"

/-- All admins. -/
def admins : String := "admins"

/-- Does a rule allow a user?  Admins are allowed wherever some group is. -/
def allows (user : Option User) : Permission → Bool
  | .group name =>
    if name = guests then true
    else match user with
      | none => false
      | some user =>
        if name = members then true
        else if name = admins then user.isAdmin
        else user.isAdmin || user.groups.contains name
  | .predicate .loggedIn => user.isSome
  | .predicate .admin => user.any User.isAdmin

end Permission

/-- May the user read a field with these rules? -/
def canRead (user : Option User) (rules : List Permission) : Bool :=
  rules.isEmpty || rules.any (Permission.allows user)

end ShapedQuery
