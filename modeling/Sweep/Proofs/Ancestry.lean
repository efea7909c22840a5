import Sweep.Proofs.Agreement
import Sweep.Proofs.Encoding
import Sweep.Proofs.Spared
import Sweep.Proofs.Special
/-!
# Lengths in place of ancestors

A plan weighs a stem against the current root, and a barred mount against it, by comparing lengths of
texts and spellings. Every stem ends with a separator, and what is compared begins one and the same
path, so the longer of two lies below the other. We prove that the plan lets a file in exactly if
nothing excludes it that stands at or below the current root, or that no explicit root goes through.
-/

namespace Sweep

/-! ## Stems end with a separator -/

theorem Pattern.stem?_ofText_ends {t stem : Text} (h : (Pattern.ofText t).stem? = some stem) :
    ∃ dir, stem = dir ++ ['/'] := by
  revert h
  unfold ofText
  dsimp only
  repeat' split
  all_goals intro h
  all_goals cases h
  · next hclosed =>
    rw [beq_iff_eq] at hclosed
    exact List.getLast?_eq_some_iff.1 hclosed
  · exact ⟨t, rfl⟩

theorem Mount.stem_ends (m : Mount) : ∃ dir, m.stem = dir ++ ['/'] := by
  unfold stem
  dsimp only
  split
  · next h => exact List.getLast?_eq_some_iff.1 h
  · exact ⟨_, rfl⟩

namespace Plan

variable {policy : Policy} {mounts : List Mount} {plan : Plan} {root : Root} {stem t : Text}
  {ns : List (List UInt8)}

theorem Reachable.stem_ends (hr : Reachable policy mounts plan) (h : stem ∈ plan.stemExclusions) :
    ∃ dir, stem = dir ++ ['/'] := by
  rw [hr.stemExclusions, List.mem_append] at h
  rcases h with h | h
  · obtain ⟨e, -, he⟩ := List.mem_filterMap.1 h
    obtain ⟨r, hp, hstem⟩ := stemOf?_eq_some_iff.1 he
    rw [Rule.pattern_of_parse hp] at hstem
    exact Pattern.stem?_ofText_ends hstem
  · obtain ⟨m, -, rfl⟩ := List.mem_map.1 h
    exact m.stem_ends

/-! ## Stems and roots -/

theorem bytes_prefix_of_prefix (h : stem <+: t) : stem.bytes <+: t.bytes := by
  obtain ⟨u, rfl⟩ := h
  rw [Text.bytes_append]
  exact List.prefix_append _ _

/-- Of the stems that begin a path below the current root, those count that are not above the root,
or all if the root is a mount. -/
theorem stemCounts_iff (hr : Reachable policy mounts plan) (hc : plan.current = some root)
    (hns : ns ≠ []) (ht : root.path.extend ns = .ofText t) (hs : stem ∈ plan.stemExclusions)
    (hpre : stem <+: t) : plan.stemCounts stem = true ↔
      ¬ (root.isExplicit = true ∧ root.path.isBelow (.ofText stem) = true) := by
  obtain ⟨dir, hdir⟩ := hr.stem_ends hs
  have hend : ∃ v, (Path.ofText stem).bytes = v ++ [Path.slash] :=
    ⟨dir.bytes, by rw [hdir, Path.ofText, Text.bytes_append]; rfl⟩
  have hbytes : (Path.ofText stem).bytes <+: (root.path.extend ns).bytes := by
    rw [ht]
    exact bytes_prefix_of_prefix hpre
  have hlen : stem.byteLength = (Path.ofText stem).bytes.length := (Text.length_bytes stem).symm
  rw [stemCounts_eq_not_goesThrough, Bool.not_eq_true', Bool.eq_false_iff, Ne, goesThrough_iff hc,
    Path.isBelow_iff_shorter (hr.kept hc).normal hns hend hbytes, hlen]
  rfl

theorem stemsExclude_eq_false_iff (hr : Reachable policy mounts plan) (hc : plan.current = some root)
    (hns : ns ≠ []) (ht : root.path.extend ns = .ofText t) :
    plan.stemsExclude t false = false ↔ ∀ stem ∈ plan.stemExclusions, stem <+: t →
      root.isExplicit = true ∧ root.path.isBelow (.ofText stem) = true := by
  rw [Bool.eq_false_iff, Ne, stemsExclude_iff]
  simp only [not_exists, not_and, stemCovers, Bool.false_and, Bool.or_false,
    List.isPrefixOf_iff_prefix]
  refine forall_congr' fun stem => forall_congr' fun hs => forall_congr' fun hpre => ?_
  rw [stemCounts_iff hr hc hns ht hs hpre, Decidable.not_not]

/-! ## Files below a root -/

/-- While a root is current, take a path with a text that a walk of the root comes to. As a file it
is let in exactly if no rule excludes it and it is not set aside exactly; if each stem that begins
it stands for a directory above the root, and the root is explicit; if it is no other root, pending
or handed out; and if, below a mount root, no barred mount that lies below the root is the path or
above it. -/
theorem admitsFile_iff_ancestors (hr : Reachable policy mounts plan)
    (hc : plan.current = some root) (hn : ∀ n ∈ ns, Path.IsName n) (hns : ns ≠ [])
    (ht : (root.path.extend ns).text? = some t) :
    plan.admitsFile (root.path.extend ns) = true ↔
      plan.rules.applies t false false = false ∧
      t ∉ plan.exactExclusions ∧
      (∀ stem ∈ plan.stemExclusions, stem <+: t →
        root.isExplicit = true ∧ root.path.isBelow (.ofText stem) = true) ∧
      ((root.path.extend ns).location ∉ plan.pendingMounts ∧
        (root.path.extend ns).location ∉ plan.pendingIncludes ∧
        (root.path.extend ns).location ∉ plan.handedOut) ∧
      (root.isExplicit = false → ∀ point ∈ plan.barredMounts,
        point.path.isBelow root.path = true →
          (root.path.extend ns).isUnder point.path = false) := by
  have hroot := (hr.kept hc).normal
  have hspelt := Path.text?_eq_some_iff.1 ht
  have htext : (root.path.extend ns).text = t := by
    rw [hspelt, Path.text, Path.ofText, Utf8.lenient_bytes]
  have hother : plan.isOtherRoot (root.path.extend ns) = false ↔
      (root.path.extend ns).location ∉ plan.pendingMounts ∧
        (root.path.extend ns).location ∉ plan.pendingIncludes ∧
        (root.path.extend ns).location ∉ plan.handedOut := by
    have hne := Path.location_extend_ne hroot hn hns
    rw [Bool.eq_false_iff, Ne, isOtherRoot_iff hc]
    simp only [hne, ne_eq, not_false_eq_true, and_true, not_or]
  have hbarred : plan.isOnBarredMount (root.path.extend ns) = false ↔
      ∀ point ∈ plan.barredMounts, point.path.isBelow root.path = true →
        (root.path.extend ns).isUnder point.path = false := by
    rw [Bool.eq_false_iff, Ne, isOnBarredMount_iff_between hc hroot (Path.isUnder_extend hroot hn)]
    simp only [not_exists, not_and, Bool.eq_false_iff, ne_eq]
    exact forall₂_congr fun point _ => imp_not_comm
  have hexplicit : plan.rootIsExplicit = root.isExplicit := by rw [rootIsExplicit, hc]
  rw [admitsFile, ← Bool.not_eq_false, admits_eq_false_iff, htext, rulesExclude,
    if_neg (by simp), ← stemsExclude_eq_false_iff hr hc hns hspelt, ← hother, ← hbarred, hexplicit]
  simp only [not_or, not_and, Bool.not_eq_true]

/-- A home directory is scanned although all homes are left out, its directory for temporary files is
not. -/
def homeOnly : Policy where
  includes := [.ofText "/home/user".toList]
  excludes := ["/home/".toList, "/home/user/tmp/".toList]

/-- The stem of all homes begins the path of a file in the home, and does not count; that of the
other directory does not begin it. -/
theorem admitsFile_home_file :
    (Reachable homeOnly [] (ofPolicy homeOnly []).next.2 ∧
      (ofPolicy homeOnly []).next.2.current = some ⟨.ofText "/home/user".toList, .explicit⟩ ∧
      (∀ n ∈ [[0x61]], Path.IsName n) ∧ [[0x61]] ≠ ([] : List (List UInt8)) ∧
      ((Path.ofText "/home/user".toList).extend [[0x61]]).text? = some "/home/user/a".toList) ∧
    (ofPolicy homeOnly []).next.2.admitsFile ((Path.ofText "/home/user".toList).extend [[0x61]]) =
      true := by
  have hr : Reachable homeOnly [] (ofPolicy homeOnly []).next.2 := Reachable.made.next
  have hc : (ofPolicy homeOnly []).next.2.current =
      some ⟨.ofText "/home/user".toList, .explicit⟩ := by decide +kernel
  have hn : ∀ n ∈ [[0x61]], Path.IsName n := by
    simp [Path.IsName, Path.slash, Path.dot]
  have ht : ((Path.ofText "/home/user".toList).extend [[0x61]]).text? =
      some "/home/user/a".toList := by decide +kernel
  refine ⟨⟨hr, hc, hn, by decide, ht⟩,
    (admitsFile_iff_ancestors hr hc hn (by decide) ht).2 ⟨?_, ?_, ?_, ?_, ?_⟩⟩
  · decide +kernel
  · decide +kernel
  · decide +kernel
  · decide +kernel
  · intro h
    cases h

end Plan

end Sweep
