import UriTemplate.Fixture
import UriTemplate.Discovery

/-!
# Listings

The suites with the cases that a pattern selects, without trying them.  A group
whose name contains the pattern keeps all of its cases, and any other group
those whose template contains it.  Under a pattern, what is left without cases is
left out.
-/

namespace UriTemplate

/-- The group with the cases that a pattern selects. -/
def Group.narrow (part : Text) (g : Group) : Group :=
  if part.occursIn g.name then g
  else { g with cases := g.cases.filter fun c => part.occursIn c.template }

namespace Listing

/-- The groups that are listed. -/
def narrow (pattern : Option Text) (groups : List Group) : List Group :=
  match pattern with
  | none => groups
  | some part => (groups.map (Group.narrow part)).filter fun g => !g.cases.isEmpty

/-- A fixture file that cannot be listed. -/
structure Fault where
  path : Files.Path
  cause : Fixture.LoadFault
deriving DecidableEq

/-- The suites that are listed with their groups. -/
def ofSuites (w : Files.World) (pattern : Option Text) :
    List Suite → Except Fault (List (Suite × List Group))
  | [] => .ok []
  | s :: rest =>
    match Fixture.load w s.path with
    | .error cause => .error ⟨s.path, cause⟩
    | .ok groups => do
      let others ← ofSuites w pattern rest
      let groups := narrow pattern groups
      return if groups.isEmpty && pattern.isSome then others else (s, groups) :: others

end Listing

end UriTemplate
