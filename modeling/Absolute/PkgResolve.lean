import Mathlib.Algebra.Group.Nat.Defs
import Mathlib.Data.List.AList

/-!
# Packages: versions, manifests and the resolver

`SemVer` and `PackageManager::ResolveDependencies`. The files are a list of the
manifests that can be read, with the paths they stand at; the resolver records a
package before it descends into it, and does not descend into a recorded one.
The recursion is bounded by a depth: `depthBound` is enough of it.
-/

namespace Absolute

namespace Package

abbrev Text := List Char

abbrev Path := List Char

/-- `std::filesystem::path::operator/`. -/
def Path.join (directory name : Path) : Path :=
  if name.head? = some '/' ∨ directory = [] then name
  else if directory.getLast? = some '/' then directory ++ name
  else directory ++ '/' :: name

/-- `PackageManifest`, as far as the resolver reads it. -/
structure PackageManifest where
  name : Text
  version : Text
  dependencies : List (Text × Text) := []
deriving DecidableEq, Repr

/-- What can be thrown. -/
inductive ResolveError where
  | cannotOpen (path : Path)
  | stoi
  | cyclic (name : Text)
  | notFound (depName : Text)
  | unsatisfied (depName version constraint requestedBy : Text)
  | conflict (depName existing constraint requestedBy : Text)
  | tooDeep
deriving DecidableEq, Repr

/-- The text of the exception; `tooDeep` is not one of the program's. -/
def ResolveError.message : ResolveError → Text
  | cannotOpen path => "Cannot open file: ".toList ++ path
  | stoi => "stoi".toList
  | cyclic name => "Cyclic dependency detected involving package '".toList ++ name ++ "'".toList
  | notFound depName => "Package dependency '".toList ++ depName
      ++ "' not found in any package registry path".toList
  | unsatisfied depName version constraint requestedBy => "Package '".toList ++ depName
      ++ "' version ".toList ++ version ++ " does not satisfy constraint '".toList ++ constraint
      ++ "' requested by '".toList ++ requestedBy ++ "'".toList
  | conflict depName existing constraint requestedBy =>
      "Version conflict for package '".toList ++ depName ++ "': existing ".toList ++ existing
      ++ " conflicts with constraint '".toList ++ constraint ++ "' from '".toList ++ requestedBy
      ++ "'".toList
  | tooDeep => []

/-! ## Versions -/

structure SemVer where
  major : Nat := 0
  minor : Nat := 0
  patch : Nat := 0
  prerelease : Text := []
deriving DecidableEq, Repr

/-- `std::stoi` of a run of digits. -/
def toInt (digits : Text) : Except ResolveError Nat :=
  let value := digits.foldl (fun n d => 10 * n + (d.toNat - '0'.toNat)) 0
  if value < 2 ^ 31 then .ok value else .error .stoi

/-- `(?:\.(\d+))?` at the front of `text`: the digits, and what follows. -/
def component (text : Text) : Option Text × Text :=
  match text with
  | '.' :: rest =>
      if rest.takeWhile Char.isDigit = [] then (none, text)
      else (some (rest.takeWhile Char.isDigit), rest.dropWhile Char.isDigit)
  | _ => (none, text)

/-- `(?:-(.+))?$`: the prerelease, if the rest of the text is one or is empty. -/
def prereleaseOf (text : Text) : Option Text :=
  match text with
  | [] => some []
  | '-' :: rest => if rest ≠ [] ∧ rest.all (fun c => c ≠ '\n' && c ≠ '\r') then some rest else none
  | _ => none

def number (digits : Option Text) : Except ResolveError Nat :=
  match digits with
  | some digits => toInt digits
  | none => .ok 0

namespace SemVer

/-- What follows the optional `v`; no match leaves every part at its default. -/
def parseBody (body : Text) : Except ResolveError SemVer :=
  let major := body.takeWhile Char.isDigit
  let minor := component (body.dropWhile Char.isDigit)
  let patch := component minor.2
  match prereleaseOf patch.2 with
  | some prerelease =>
      if major = [] then .ok {}
      else do
        let majorValue ← toInt major
        let minorValue ← number minor.1
        let patchValue ← number patch.1
        .ok { major := majorValue, minor := minorValue, patch := patchValue, prerelease }
  | none => .ok {}

def parse (text : Text) : Except ResolveError SemVer :=
  parseBody (if text.head? = some 'v' then text.tail else text)

def satisfies (version constraint : Text) : Except ResolveError Bool :=
  if constraint = "*".toList ∨ constraint = [] then .ok true
  else do
    let v ← parse version
    match constraint with
    | '^' :: rest =>
        let target ← parse rest
        .ok (v.major = target.major
          ∧ (v.minor > target.minor ∨ v.minor = target.minor ∧ v.patch ≥ target.patch))
    | '~' :: rest =>
        let target ← parse rest
        .ok (v.major = target.major ∧ v.minor = target.minor ∧ v.patch ≥ target.patch)
    | '>' :: '=' :: rest =>
        let target ← parse rest
        .ok (if v.major ≠ target.major then v.major > target.major
          else if v.minor ≠ target.minor then v.minor > target.minor else v.patch ≥ target.patch)
    | '<' :: '=' :: rest =>
        let target ← parse rest
        .ok (if v.major ≠ target.major then v.major < target.major
          else if v.minor ≠ target.minor then v.minor < target.minor else v.patch ≤ target.patch)
    | _ =>
        let target ← parse constraint
        .ok (v.major = target.major ∧ v.minor = target.minor ∧ v.patch = target.patch)

end SemVer

/-! ## Files -/

/-- The files there are; a manifest that cannot be opened is `none`. -/
structure FileSystem where
  files : List (Path × Option PackageManifest)

namespace FileSystem

def fileExists (F : FileSystem) (path : Path) : Bool := (F.files.lookup path).isSome

/-- `PackageManager::LoadManifest`. -/
def loadManifest (F : FileSystem) (path : Path) : Except ResolveError PackageManifest :=
  match F.files.lookup path with
  | some (some manifest) => .ok manifest
  | _ => .error (.cannotOpen path)

/-- The manifest of a package in one registry. -/
def inRegistry (F : FileSystem) (depName : Text) (registry : Path) : Option Path :=
  let candidateDir := registry.join depName
  if F.fileExists (candidateDir.join "package.abs".toList) then
    some (candidateDir.join "package.abs".toList)
  else if F.fileExists (candidateDir.join "abspackage.json".toList) then
    some (candidateDir.join "abspackage.json".toList)
  else if F.fileExists (candidateDir.join (depName ++ ".absproj".toList)) then
    some (candidateDir.join (depName ++ ".absproj".toList))
  else none

def search (F : FileSystem) (registryPaths : List Path) (depName : Text) : Option Path :=
  registryPaths.findSome? (F.inRegistry depName)

end FileSystem

/-! ## The resolver -/

structure PackageLockfile where
  resolvedVersions : AList fun _ : Text => Text := ∅
  resolvedPaths : AList fun _ : Text => Path := ∅

def PackageLockfile.record (resolved : PackageLockfile) (depName version : Text) (path : Path) :
    PackageLockfile where
  resolvedVersions := resolved.resolvedVersions.insert depName version
  resolvedPaths := resolved.resolvedPaths.insert depName path

section Resolver

variable (F : FileSystem) (registryPaths : List Path)

/-- Where a dependency is found: in a registry, else where it was before. -/
def locate (resolved : PackageLockfile) (depName : Text) : Option Path :=
  (F.search registryPaths depName).or (resolved.resolvedPaths.lookup depName)

def requireVersion (version constraint : Text) (otherwise : ResolveError) :
    Except ResolveError Unit := do
  if ← SemVer.satisfies version constraint then .ok () else .error otherwise

/-- One turn of the loop over `currentManifest.dependencies`. -/
def resolveDependency
    (descend : PackageManifest → PackageLockfile → Except ResolveError PackageLockfile)
    (current : Text) (resolved : PackageLockfile) (dependency : Text × Text) :
    Except ResolveError PackageLockfile :=
  match locate F registryPaths resolved dependency.1 with
  | none => .error (.notFound dependency.1)
  | some depPath => do
      let depManifest ← F.loadManifest depPath
      requireVersion depManifest.version dependency.2
        (.unsatisfied dependency.1 depManifest.version dependency.2 current)
      match resolved.resolvedVersions.lookup dependency.1 with
      | some existing => do
          requireVersion existing dependency.2
            (.conflict dependency.1 existing dependency.2 current)
          .ok resolved
      | none =>
          descend depManifest (resolved.record dependency.1 depManifest.version depPath)

/-- `ResolveRecursive`. The name is taken off the active stack again on the way
out, so a caller's stack is what it was. -/
def resolveRecursive : Nat → List Text → PackageManifest → PackageLockfile →
    Except ResolveError PackageLockfile
  | 0, _, _, _ => .error .tooDeep
  | depth + 1, activeStack, current, resolved =>
      if current.name ∈ activeStack then .error (.cyclic current.name)
      else
        current.dependencies.foldlM
          (resolveDependency F registryPaths
            (resolveRecursive depth (current.name :: activeStack)) current.name)
          resolved

/-- Every name a manifest asks for. -/
def dependencyNames (manifest : PackageManifest) : List Text :=
  (manifest.dependencies ++ F.files.flatMap fun file =>
    match file.2 with
    | some manifest => manifest.dependencies
    | none => []).map Prod.fst

def depthBound (manifest : PackageManifest) : Nat := (dependencyNames F manifest).length + 1

/-- `PackageManager::ResolveDependencies`. -/
def resolveDependencies (manifest : PackageManifest) (existingLockfile : PackageLockfile) :
    Except ResolveError PackageLockfile :=
  resolveRecursive F registryPaths (depthBound F manifest) [] manifest existingLockfile

end Resolver

end Package

end Absolute
