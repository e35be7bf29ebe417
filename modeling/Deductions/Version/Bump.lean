import Deductions.Version

namespace Deductions

inductive ChangeKind where
  | none
  /-- Nodes have other contents, but the paths are the same. -/
  | patch
  /-- Nodes or expansion targets were added, or nodes removed that are no targets. -/
  | minor
  /-- Expansion targets were lost or retargeted. -/
  | major
deriving DecidableEq

def ChangeKind.all : List ChangeKind := [.none, .patch, .minor, .major]

def ChangeKind.text : ChangeKind → String
  | .none => "none"
  | .patch => "patch"
  | .minor => "minor"
  | .major => "major"

namespace Version

/-- The smallest version that may follow `v` after a change. Below 1.0.0 a major change asks for a
new minor version only. -/
def bump (v : Version) : ChangeKind → Version
  | .none => v
  | .patch => plain v.major v.minor (v.patch + 1)
  | .minor => plain v.major (v.minor + 1) 0
  | .major => if v.major = 0 then plain 0 (v.minor + 1) 0 else plain (v.major + 1) 0 0

/-- Whether `next` may follow `previous` after a change. -/
def satisfies (previous next : Version) (change : ChangeKind) : Bool :=
  (compare (previous.bump change) next).isLE

end Version

end Deductions
