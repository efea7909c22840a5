import Sweep.Path.Normal
/-!
# Locations

A location is what all spellings of one path have in common. It is kept as the shortest spelling
beside a digest of it, so that two locations that differ are nearly always told apart at once. The
main statements say that paths are the same exactly when their locations are equal, and that one
lies below the other exactly when its location does.
-/

namespace Sweep

/-- A number made of the bytes of a spelling. -/
def Path.digest (p : Path) : UInt64 :=
  p.bytes.foldl (fun n b => n * 1000003 + b.toUInt64) 0

/-- A path in its shortest spelling. -/
structure Location where
  path : Path
  digest : UInt64
  normal_eq : path.normal = path
  digest_eq : digest = path.digest
  deriving Repr

namespace Location

@[ext] theorem ext {a b : Location} (h : a.path = b.path) : a = b := by
  obtain ⟨p, d, hn, hd⟩ := a
  obtain ⟨q, e, hm, he⟩ := b
  obtain rfl : p = q := h
  obtain rfl : d = e := hd.trans he.symm
  rfl

/-- Spellings are compared only if the digests agree. -/
instance : DecidableEq Location := fun a b =>
  if hd : a.digest = b.digest then
    if hb : a.path.bytes = b.path.bytes then
      isTrue (ext (by cases ha : a.path; cases hc : b.path; simp_all))
    else isFalse fun h => hb (h ▸ rfl)
  else isFalse fun h => hd (h ▸ rfl)

end Location

namespace Path

/-- The shortest spelling is as short as can be. -/
theorem normal_normal (p : Path) : p.normal.normal = p.normal := by
  rw [normal, components_normal, ← normal]

/-- The location of a path. -/
def location (p : Path) : Location :=
  let q := p.normal
  ⟨q, q.digest, p.normal_normal, rfl⟩

@[simp] theorem path_location (p : Path) : p.location.path = p.normal := rfl

/-- Two paths are the same exactly when their locations are equal. -/
theorem location_eq_location_iff {p q : Path} : p.location = q.location ↔ p.same q = true := by
  rw [Location.ext_iff, path_location, path_location, normal_eq_normal_iff]

end Path

namespace Location

/-- A location is that of its own spelling. -/
@[simp] theorem location_path (l : Location) : l.path.location = l := ext l.normal_eq

/-- Whether the location is the other one or lies below it. Most that do not are told by the
spelling, which that of every location above begins. -/
def isUnder (l m : Location) : Bool :=
  m.path.bytes.isPrefixOf l.path.bytes && l.path.isUnder m.path

/-- A path lies below another one exactly when its location does. -/
theorem isUnder_location (p q : Path) : p.location.isUnder q.location = p.isUnder q := by
  have h : p.normal.isUnder q.normal = p.isUnder q := by simp [Path.isUnder]
  rw [isUnder, Path.path_location, Path.path_location, h]
  cases hu : p.isUnder q with
  | false => simp
  | true => simpa using Path.normal_prefix_of_isUnder hu

/-- The pairs whose location did not come before. -/
def firsts {α : Type} : List (Location × α) → List (Location × α)
  | [] => []
  | e :: es => e :: (firsts es).filter fun f => f.1 != e.1

end Location

/-- The first of each group of paths that are the same, in their order. -/
def Path.distinct (ps : List Path) : List Path :=
  (Location.firsts (ps.map fun p => (p.location, p))).map Prod.snd

end Sweep
