import Notely.Desktop.FileSystem

/-! # What renaming and moving may destroy

The operating system does what it can (`settled`: no fault to come). A direct rename puts the source at the
destination or changes nothing (`renameEntity_direct`). The case-only rename through a temporary name does
the same, except that where the destination does not make way it stops half-way (`renameEntity_viaTemp`).

* `move_keeps_iff`: `move` keeps the source's content exactly if it neither deletes an entry that holds the
  source or lies in it, nor stops half-way.
* `no_overwrite_iff`: `rename` and `move` leave every other entry alone exactly if they are no case-only
  rename onto another entry that makes way: the collision check is left out there, also where the file
  system tells case apart. -/

namespace Notely.Desktop.FileSafety

open Notely.Lib.Strings Notely.Lib.Paths Notely.Lib.FileTree Notely.Desktop.FileSystem

/-- A world in which no change fails that could be made. -/
def settled (t : DirTree Text) : World := ⟨t, []⟩

/-- The files an operation leaves. -/
def after {α : Type} : EStateM.Result FsError World α → DirTree Text
  | .ok _ w => w.tree
  | .error _ w => w.tree

/-- The operation throws. -/
def Throws {α : Type} : EStateM.Result FsError World α → Prop
  | .ok _ _ => False
  | .error _ _ => True

section Primitives
variable {P : Platform} {t : DirTree Text} {isDir : Bool} {source dest path : Path}

theorem entityRename_ok (h : Renamable P t isDir source dest) :
    entityRename P isDir source dest (settled t) = .ok () (settled h.tree) := by
  simp [entityRename, osChange, settled, h]

theorem entityRename_error (h : ¬ Renamable P t isDir source dest) :
    entityRename P isDir source dest (settled t) = .error .os (settled t) := by
  simp [entityRename, osChange, settled, h]

/-- An entry that exists is deleted by one change. -/
theorem delete_of_exists {w : World} (h : w.tree.Exists (P.key path)) :
    delete P path w = osChange (fun t => some (t.remove (P.key path))) w := by
  by_cases hd : w.tree.DirAt (P.key path)
  · simp [delete, directoryExists, hd, bind, EStateM.bind]
  · have hf : (w.tree.node (P.key path)).any Node.isFile = true := by
      rcases h with h0 | hs
      · exact absurd (Or.inl h0) hd
      · obtain ⟨n, hn⟩ := Option.isSome_iff_exists.mp hs
        cases n with
        | file _ => simp [hn, Node.isFile]
        | dir => exact absurd (Or.inr (by simp [hn])) hd
    simp [delete, directoryExists, fileExists, hd, hf, bind, EStateM.bind]

theorem delete_settled (h : t.Exists (P.key path)) :
    delete P path (settled t) = .ok () (settled (t.remove (P.key path))) := by
  rw [delete_of_exists (w := settled t) h]
  simp [osChange, settled]

/-- An entry has the kind that the check of `Directory(path).exists` tells. -/
theorem kindIs_of_isSome {p : Path} (h : (t.node p).isSome) : KindIs t (t.DirAt p) p := by
  obtain ⟨n, hn⟩ := Option.isSome_iff_exists.mp h
  have hne : p ≠ [] := by
    rintro rfl
    simp at h
  unfold KindIs DirTree.DirAt
  cases n <;> simp [hn, hne]

theorem isSome_of_not_makesWay {p : Path} (h : ¬ MakesWay P t isDir p) : (t.node p).isSome := by
  by_contra hn
  rw [Option.not_isSome_iff_eq_none] at hn
  simp [MakesWay, hn] at h

end Primitives

/-! ### The temporary name -/

section Temp
variable {P : Platform} {t : DirTree Text} {dest : Path}

/-- What tells the temporary names apart. -/
def tempSuffix : ℕ → Text
  | 0 => []
  | i + 1 => Dart.digits i

theorem tempName_injective (base : Text) :
    ∀ j k, P.fold (tempName base j) = P.fold (tempName base k) → j = k := by
  have h0 : ∀ k, tempName base k = ('.' :: base ++ ".notely-tmp".toList) ++ tempSuffix k := by
    rintro (_ | i)
    · exact (List.append_nil _).symm
    · rfl
  have hd : ∀ k : ℕ, ∀ c ∈ tempSuffix k, c.isDigit := by
    rintro (_ | i) c hc
    · simp [tempSuffix] at hc
    · exact Dart.isDigit_of_mem_digits hc
  intro j k h
  rw [h0 j, h0 k] at h
  have := P.fold_digits _ _ _ (hd j) (hd k) h
  cases j with
  | zero =>
    cases k with
    | zero => rfl
    | succ k => exact absurd this.symm (Dart.digits_ne_nil k)
  | succ j =>
    cases k with
    | zero => exact absurd this (Dart.digits_ne_nil j)
    | succ k => rw [Dart.digits_injective this]

/-- **The search for a temporary name ends with a free one.** -/
theorem temp_free (P : Platform) (t : DirTree Text) (dest : Path) :
    t.node (P.key (tempPath dest (tempIndex P t dest))) = none := by
  have hinj : Function.Injective fun k => P.key (tempPath dest k) := by
    intro j k h
    simp only [tempPath, P.key_concat] at h
    exact tempName_injective _ _ _ (by simpa using h)
  obtain ⟨j, hj, hfree⟩ := exists_free t.support hinj
  have hex : ∃ j < t.support.length + 1, decide (t.Exists (P.key (tempPath dest (0 + j)))) = false := by
    refine ⟨j, hj, ?_⟩
    simp only [decide_eq_false_iff_not, Nat.zero_add]
    rintro (h0 | hs)
    · simp [tempPath, P.key_concat] at h0
    · exact hfree (t.mem_support _ (DirTree.entry_isSome.mpr hs))
  have := (firstFree_spec (fun k => decide (t.Exists (P.key (tempPath dest k)))) hex).1
  simp only [decide_eq_false_iff_not] at this
  rw [← Option.not_isSome_iff_eq_none]
  exact fun hs => this (Or.inr hs)

theorem length_tempPath (hne : dest ≠ []) (k : ℕ) : (tempPath dest k).length = dest.length := by
  have := List.length_pos_of_ne_nil hne
  simp [tempPath, dirname]
  omega

theorem key_tempPath_dirname (k : ℕ) : (P.key (tempPath dest k)).dropLast = (P.key dest).dropLast := by
  simp [Platform.key_dirname, tempPath, dirname, P.key_concat]

end Temp

/-! ### Renaming an entry -/

/-- What `_renameEntity` does: a direct rename where the operating system makes it. -/
theorem renameEntity_direct (P : Platform) (t : DirTree Text) (isDir : Bool) (source dest : Path) :
    (∃ h : Renamable P t isDir source dest,
      renameEntity P isDir source dest false (settled t) = .ok dest (settled h.tree)) ∨
    (¬ Renamable P t isDir source dest ∧
      renameEntity P isDir source dest false (settled t) = .error .os (settled t)) := by
  by_cases h : Renamable P t isDir source dest
  · left
    refine ⟨h, ?_⟩
    simp [renameEntity, bind, EStateM.bind, pure, EStateM.pure, entityRename_ok h]
  · right
    refine ⟨h, ?_⟩
    simp [renameEntity, bind, EStateM.bind, entityRename_error h]

section ViaTemp
variable {P : Platform} {t : DirTree Text} {isDir : Bool} {source dest : Path}

/-- The two renames of a change of case. -/
theorem renameEntity_caseOnly (P : Platform) (w : World) (isDir : Bool) (source dest : Path) :
    renameEntity P isDir source dest true w =
      match entityRename P isDir source (tempPath dest (tempIndex P w.tree dest)) w with
      | .ok _ w1 =>
        match entityRename P isDir (tempPath dest (tempIndex P w.tree dest)) dest w1 with
        | .ok _ w2 => .ok dest w2
        | .error e w2 => .error e w2
      | .error e w1 => .error e w1 := by
  have hget : EStateM.get w = (.ok w w : EStateM.Result FsError World World) := rfl
  simp only [renameEntity, if_true, bind, EStateM.bind, pure, EStateM.pure, get, getThe, MonadStateOf.get, hget]
  cases entityRename P isDir source (tempPath dest (tempIndex P w.tree dest)) w with
  | ok _ w1 =>
    dsimp only
    cases entityRename P isDir (tempPath dest (tempIndex P w.tree dest)) dest w1 <;> rfl
  | error _ _ => rfl

/-- What makes way depends on what is at the path and below it. -/
theorem makesWay_congr {t' : DirTree Text} {p : Path} (h : ∀ q, p <+: q → t'.node q = t.node q) :
    MakesWay P t' isDir p ↔ MakesWay P t isDir p := by
  have hchildless : t'.Childless p ↔ t.Childless p := by
    rw [DirTree.childless_iff, DirTree.childless_iff]
    exact forall₂_congr fun q hq => by rw [h q hq.1]
  unfold MakesWay
  rw [h p List.prefix_rfl, hchildless]

/-- The root is no entry of its kind. -/
theorem ne_nil_of_kindIs (hlen : source.length = dest.length) (hk : KindIs t isDir (P.key source)) : dest ≠ [] := by
  rintro rfl
  obtain rfl : source = [] := by simpa using hlen
  have hsome := hk.isSome
  simp [Platform.key] at hsome

/-- Nothing is below a temporary name before it is used, -/
theorem none_below_temp {q : Path} (hq : P.key (tempPath dest (tempIndex P t dest)) <+: q) : t.node q = none := by
  by_contra hsome
  rcases DirTree.exists_of_prefix hq (Or.inr (Option.isSome_iff_ne_none.mpr hsome)) with h0 | hs
  · simp [tempPath, P.key_concat] at h0
  · simp [temp_free] at hs

/-- and the source does not have it. -/
theorem source_ne_temp (dest : Path) (hk : KindIs t isDir (P.key source)) :
    P.key source ≠ P.key (tempPath dest (tempIndex P t dest)) := by
  intro he
  have hsome := hk.isSome
  simp [he, temp_free] at hsome

/-- The first of the two renames needs only the source and the destination's directory. -/
theorem renamable_temp (hlen : source.length = dest.length) :
    Renamable P t isDir source (tempPath dest (tempIndex P t dest)) ↔
      KindIs t isDir (P.key source) ∧ t.DirAt (P.key dest).dropLast := by
  constructor
  · intro h
    exact ⟨h.kind, by simpa only [key_tempPath_dirname] using h.parent⟩
  · rintro ⟨hk, hd⟩
    have hne := ne_nil_of_kindIs hlen hk
    refine ⟨hk, by simp [tempPath, P.key_concat], by rwa [key_tempPath_dirname], fun h => ?_, Or.inr ?_⟩
    · exact h.eq_of_length (by simp [length_tempPath hne, hlen])
    · simp [MakesWay, temp_free]

/-- The second one is made exactly if the destination is the source itself or makes way. -/
theorem renamable_fromTemp (hlen : source.length = dest.length)
    (h1 : Renamable P t isDir source (tempPath dest (tempIndex P t dest))) :
    Renamable P h1.tree isDir (tempPath dest (tempIndex P t dest)) dest ↔
      P.key source = P.key dest ∨ MakesWay P t isDir (P.key dest) := by
  have hfree := temp_free P t dest
  have hne := ne_nil_of_kindIs hlen h1.kind
  generalize hk : tempPath dest (tempIndex P t dest) = temp at h1 hfree ⊢
  have htl : temp.length = dest.length := by rw [← hk, length_tempPath hne]
  have hpos : 0 < dest.length := List.length_pos_of_ne_nil hne
  -- paths of one length below each other are one
  have hpre : ∀ {a b q : Path}, a.length = b.length → a <+: q → b <+: q → a = b := by
    intro a b q hl ha hb
    exact (List.prefix_of_prefix_length_le ha hb hl.le).eq_of_length hl
  have htemp : h1.tree.node (P.key temp) = t.node (P.key source) := by
    rw [h1.node_tree, if_pos List.prefix_rfl, ← P.length_key (p := temp), List.drop_length,
      List.append_nil]
  have hparent : h1.tree.DirAt (P.key dest).dropLast := by
    have hd := h1.parent
    rw [← hk, key_tempPath_dirname] at hd
    rcases hd with h0 | hd
    · exact Or.inl h0
    · right
      have hshort : ∀ p : Path, p.length = dest.length → ¬ p <+: (P.key dest).dropLast := by
        intro p hp hle
        have := hle.length_le
        simp at this
        omega
      rwa [h1.node_tree, if_neg (hshort _ (by simp [htl])), if_neg (hshort _ (by simp [hlen]))]
  have hother : ∀ q, P.key dest <+: q → P.key temp ≠ P.key dest → P.key source ≠ P.key dest →
      h1.tree.node q = t.node q := by
    intro q hq htd hsd
    rw [h1.node_tree, if_neg fun h => htd (hpre (by simp [htl]) h hq),
      if_neg fun h => hsd (hpre (by simp [hlen]) h hq)]
  constructor
  · intro h2
    by_contra hn
    push Not at hn
    obtain ⟨hsd, hway⟩ := hn
    have htd : P.key temp ≠ P.key dest := by
      intro he
      have := isSome_of_not_makesWay hway
      rw [← he, hfree] at this
      simp at this
    rcases h2.way with he | hw
    · exact htd he
    · exact hway ((makesWay_congr fun q hq => hother q hq htd hsd).mp hw)
  · intro h
    refine ⟨?_, by simp [Platform.key, hne], hparent, fun hp => hp.eq_of_length (by simp [htl]), ?_⟩
    · unfold KindIs
      rw [htemp]
      exact h1.kind
    by_cases htd : P.key temp = P.key dest
    · exact Or.inl htd
    right
    by_cases hsd : P.key source = P.key dest
    · have hgone : h1.tree.node (P.key dest) = none := by
        rw [h1.node_tree, if_neg, if_pos (hsd ▸ List.prefix_rfl)]
        exact fun hp => htd (hp.eq_of_length (by simp [htl]))
      simp [MakesWay, hgone]
    · exact (makesWay_congr fun q hq => hother q hq htd hsd).mpr (h.resolve_left hsd)

/-- **The case-only rename**: a direct one where the operating system makes that; where the destination
does not make way the source is left under the temporary name; else nothing happens. -/
theorem renameEntity_viaTemp (P : Platform) (t : DirTree Text) (isDir : Bool) (hlen : source.length = dest.length) :
    (∃ t', renameEntity P isDir source dest true (settled t) = .ok dest (settled t') ∧
      KindIs t isDir (P.key source) ∧ (P.key source = P.key dest ∨ MakesWay P t isDir (P.key dest)) ∧
      ∀ q, t'.node q =
        if P.key dest <+: q then t.node (P.key source ++ q.drop dest.length)
        else if P.key source <+: q then none else t.node q) ∨
    (∃ t', renameEntity P isDir source dest true (settled t) = .error .os (settled t') ∧
      KindIs t isDir (P.key source) ∧ P.key source ≠ P.key dest ∧ ¬ MakesWay P t isDir (P.key dest) ∧
      t'.node (P.key source) = none ∧
      ∀ q, ¬ P.key source <+: q → (t.node q).isSome → t'.node q = t.node q) ∨
    (renameEntity P isDir source dest true (settled t) = .error .os (settled t) ∧
      ¬ (KindIs t isDir (P.key source) ∧ t.DirAt (P.key dest).dropLast)) := by
  have hrun := renameEntity_caseOnly P (settled t) isDir source dest
  rw [show (settled t).tree = t from rfl] at hrun
  by_cases h1 : Renamable P t isDir source (tempPath dest (tempIndex P t dest))
  · have hsecond := renamable_fromTemp hlen h1
    have hks := source_ne_temp dest h1.kind
    have hnone : ∀ q, P.key (tempPath dest (tempIndex P t dest)) <+: q → t.node q = none := fun q => none_below_temp
    have hne := ne_nil_of_kindIs hlen h1.kind
    rw [entityRename_ok h1] at hrun
    generalize hk : tempPath dest (tempIndex P t dest) = temp at h1 hks hnone hsecond hrun
    have htl : temp.length = dest.length := by rw [← hk, length_tempPath hne]
    by_cases h2 : Renamable P h1.tree isDir temp dest
    · left
      refine ⟨h2.tree, ?_, h1.kind, hsecond.mp h2, fun q => ?_⟩
      · rw [hrun]
        simp only [entityRename_ok h2]
      rw [h2.node_tree]
      by_cases hq : P.key dest <+: q
      · rw [if_pos hq, if_pos hq, h1.node_tree, if_pos (List.prefix_append _ _)]
        rw [show temp.length = (P.key temp).length by simp, List.drop_left]
      · rw [if_neg hq, if_neg hq]
        by_cases ht : P.key temp <+: q
        · rw [if_pos ht, hnone q ht, ite_self]
        · rw [if_neg ht, h1.node_tree, if_neg ht]
    · right; left
      have hn := mt hsecond.mpr h2
      push Not at hn
      refine ⟨h1.tree, ?_, h1.kind, hn.1, hn.2, ?_, fun q hq hs => ?_⟩
      · rw [hrun]
        simp only [entityRename_error h2]
      · rw [h1.node_tree, if_neg, if_pos List.prefix_rfl]
        exact fun hp => hks (hp.eq_of_length (by simp [htl, hlen])).symm
      · rw [h1.node_tree, if_neg, if_neg hq]
        intro ht
        simp [hnone q ht] at hs
  · right; right
    refine ⟨?_, fun h => h1 ((renamable_temp hlen).mpr h)⟩
    rw [hrun, entityRename_error h1]

end ViaTemp

/-! ### Moving keeps the source -/

/-- All at and below `p` in `t` is at and below `p'` in `t'`. -/
def Carried (t : DirTree Text) (p : Path) (t' : DirTree Text) (p' : Path) : Prop :=
  ∀ r, t'.node (p' ++ r) = t.node (p ++ r)

/-- The source's content is at the path returned, or still at the source if the operation throws. -/
def Keeps (P : Platform) (t : DirTree Text) (source : Path) : EStateM.Result FsError World Path → Prop
  | .ok path w => Carried t (P.key source) w.tree (P.key path)
  | .error _ w => Carried t (P.key source) w.tree (P.key source)

section Move
variable (P : Platform) (t : DirTree Text) (source destDir : Path) (replace : Bool) (renameTo : Option Text)

/-- The `dest` of `move`. -/
def moveDest : Path := join destDir (P.moveName (t.DirAt (P.key source)) source renameTo)

/-- `move` finds an entry at the destination that it does not take for the source. -/
def Collides (dest : Path) : Prop :=
  P.isCaseOnlyRename source dest = false ∧ P.equals dest source = false ∧ t.Exists (P.key dest)

instance (dest : Path) : Decidable (Collides P t source dest) :=
  inferInstanceAs (Decidable (_ ∧ _ ∧ _))

/-- `move` deletes an entry that is the source, holds it or lies in it. -/
def DeletesOwn (dest : Path) : Prop :=
  replace = true ∧ Collides P t source dest ∧
    (P.key dest <+: P.key source ∨ P.key source <+: P.key dest)

/-- A case-only rename onto an entry that does not make way. -/
def StopsHalfway (dest : Path) : Prop :=
  P.isCaseOnlyRename source dest = true ∧ P.key source ≠ P.key dest ∧
    ¬ MakesWay P t (t.DirAt (P.key source)) (P.key dest)

/-- What `move` does after the collision check. -/
theorem move_run (w : World) (dest : Path) (hdest : dest = moveDest P w.tree source destDir renameTo) :
    move P source destDir replace renameTo w =
      if Collides P w.tree source dest then
        if replace then
          match delete P dest w with
          | .ok _ w' => renameEntity P (w.tree.DirAt (P.key source)) source dest false w'
          | .error e w' => .error e w'
        else .error (.exception ("An item named \"".toList ++
          P.moveName (w.tree.DirAt (P.key source)) source renameTo ++ "\" already exists here".toList) dest) w
      else renameEntity P (w.tree.DirAt (P.key source)) source dest (P.isCaseOnlyRename source dest) w := by
  have hiff : (!P.isCaseOnlyRename source dest && !P.equals dest source &&
      decide (w.tree.Exists (P.key dest))) = true ↔ Collides P w.tree source dest := by
    simp [Collides, and_assoc]
  simp only [move, directoryExists, pathExists, bind, EStateM.bind]
  rw [show join destDir (P.moveName (w.tree.DirAt (P.key source)) source renameTo) = dest from hdest.symm]
  by_cases hc : Collides P w.tree source dest
  · rw [if_pos (hiff.mpr hc), if_pos hc]
    cases replace with
    | false => rfl
    | true =>
      simp only [if_true, EStateM.bind, hc.1]
      cases delete P dest w <;> rfl
  · rw [if_neg (mt hiff.mp hc), if_neg hc]

/-- What `move` does where no change fails that could be made. -/
theorem move_settled (dest : Path) (hdest : dest = moveDest P t source destDir renameTo) :
    move P source destDir replace renameTo (settled t) =
      if Collides P t source dest then
        if replace then
          renameEntity P (t.DirAt (P.key source)) source dest false (settled (t.remove (P.key dest)))
        else .error (.exception ("An item named \"".toList ++
          P.moveName (t.DirAt (P.key source)) source renameTo ++ "\" already exists here".toList) dest)
          (settled t)
      else renameEntity P (t.DirAt (P.key source)) source dest (P.isCaseOnlyRename source dest)
        (settled t) := by
  rw [move_run P source destDir replace renameTo (settled t) dest hdest]
  by_cases hc : Collides P t source dest
  · rw [if_pos hc, if_pos (show Collides P (settled t).tree source dest from hc), delete_settled hc.2.2]
    rfl
  · rw [if_neg hc, if_neg (show ¬ Collides P (settled t).tree source dest from hc)]
    rfl

/-- A direct rename carries the source along, or changes nothing. -/
theorem keeps_direct {dest : Path} {isDir : Bool} :
    Keeps P t source (renameEntity P isDir source dest false (settled t)) := by
  rcases renameEntity_direct P t isDir source dest with
    ⟨h, he⟩ | ⟨-, he⟩
  · rw [he]
    intro r
    simp only [settled]
    rw [h.node_tree, if_pos (List.prefix_append _ _), ← P.length_key (p := dest), List.drop_left]
  · rw [he]
    exact fun _ => rfl

/-- An entry that exists lies in a directory. -/
theorem dirAt_dropLast {p : Path} (h : (t.node p).isSome) : t.DirAt p.dropLast := by
  refine DirTree.dirAt_of_within ⟨List.dropLast_prefix p, fun he => ?_⟩ h
  have hlen := congrArg List.length he
  have hne : p ≠ [] := by
    rintro rfl
    simp at h
  have := List.length_pos_of_ne_nil hne
  rw [List.length_dropLast] at hlen
  omega

/-- An entry next to the source, not above or below it, can be deleted first. -/
theorem keeps_of_deleted {dest : Path} {isDir : Bool} (hs : KindIs t isDir (P.key source))
    (hex : t.Exists (P.key dest)) (h1 : ¬ P.key dest <+: P.key source)
    (h2 : ¬ P.key source <+: P.key dest) :
    Keeps P t source (renameEntity P isDir source dest false (settled (t.remove (P.key dest)))) := by
  have hne : P.key dest ≠ [] := fun h0 => h1 (h0 ▸ List.nil_prefix)
  have hdrop : ¬ P.key dest <+: (P.key dest).dropLast := by
    intro h
    have := h.length_le
    have := List.length_pos_of_ne_nil hne
    rw [List.length_dropLast] at *
    omega
  have hR : Renamable P (t.remove (P.key dest)) isDir source dest := by
    refine ⟨?_, hne, ?_, fun h => absurd h h2, Or.inr ?_⟩
    · unfold KindIs at hs ⊢
      rwa [DirTree.node_remove, if_neg h1]
    · have hsome : (t.node (P.key dest)).isSome := hex.resolve_left hne
      rcases dirAt_dropLast t hsome with h0 | hd
      · exact Or.inl h0
      · right
        rwa [DirTree.node_remove, if_neg hdrop]
    · simp [MakesWay, DirTree.node_remove]
  rcases renameEntity_direct P (t.remove (P.key dest)) isDir source dest with ⟨h, he⟩ | ⟨hn, -⟩
  · rw [he]
    intro r
    have hnot : ¬ P.key dest <+: P.key source ++ r := by
      intro hp
      rcases List.prefix_or_prefix_of_prefix hp (List.prefix_append _ r) with h | h
      · exact h1 h
      · exact h2 h
    simp only [settled]
    rw [h.node_tree, if_pos (List.prefix_append _ _), ← P.length_key (p := dest), List.drop_left,
      DirTree.node_remove, if_neg hnot]
  · exact absurd hR hn

/-- Once the source, or an entry above or below it, is deleted, its content is not kept. -/
theorem not_keeps_of_deleted {dest : Path} {isDir : Bool} (hs : t.Exists (P.key source))
    (hne : P.key source ≠ [] ∨ P.key dest ≠ [])
    (hex : t.Exists (P.key dest)) (h : P.key dest <+: P.key source ∨ P.key source <+: P.key dest) :
    ¬ Keeps P t source (renameEntity P isDir source dest false (settled (t.remove (P.key dest)))) := by
  have hR : ¬ Renamable P (t.remove (P.key dest)) isDir source dest := by
    intro hR
    have hk := hR.kind.isSome
    rw [DirTree.node_remove] at hk
    rcases h with h | h
    · simp [h] at hk
    · have := hR.notInside h
      simp [this] at hk
  rcases renameEntity_direct P (t.remove (P.key dest)) isDir source dest with ⟨hR', -⟩ | ⟨-, he⟩
  · exact absurd hR' hR
  rw [he]
  intro hk
  have hk : ∀ r, (t.remove (P.key dest)).node (P.key source ++ r) = t.node (P.key source ++ r) := hk
  -- some path at or below the source was there and is gone
  rcases h with h | h
  · have hgone := hk []
    rw [List.append_nil, DirTree.node_remove, if_pos h] at hgone
    rcases hs with h0 | hs
    · rw [h0] at h hne
      exact hne.elim (fun hn => hn rfl) fun hn => hn (List.prefix_nil.mp h)
    · simp [← hgone] at hs
  · obtain ⟨r, hr⟩ := h
    have hgone := hk r
    rw [hr, DirTree.node_remove, if_pos List.prefix_rfl] at hgone
    rcases hex with h0 | hs
    · rw [h0] at hr hne
      exact hne.elim (fun hn => hn (List.append_eq_nil_iff.mp hr).1) fun hn => hn rfl
    · simp [← hgone] at hs

/-- Where nothing is at the source, nothing is to be kept. -/
theorem keeps_of_gone {dest : Path} {isDir : Bool} (hs : ¬ t.Exists (P.key source)) :
    Keeps P t source (renameEntity P isDir source dest false (settled (t.remove (P.key dest)))) := by
  have hgone : ∀ r, t.node (P.key source ++ r) = none := by
    intro r
    by_contra hn
    exact hs (DirTree.exists_of_prefix (List.prefix_append _ r) (Or.inr (Option.isSome_iff_ne_none.mpr hn)))
  have hrem : ∀ r, (t.remove (P.key dest)).node (P.key source ++ r) = none := by
    intro r
    rw [DirTree.node_remove, hgone, ite_self]
  rcases renameEntity_direct P (t.remove (P.key dest)) isDir source dest with ⟨h, -⟩ | ⟨-, he⟩
  · have hk := h.kind.isSome
    have h0 := hrem []
    rw [List.append_nil] at h0
    simp [h0] at hk
  · rw [he]
    intro r
    rw [hgone r]
    exact hrem r

/-- `move` that deletes what is in its way keeps the source unless it deletes its own. -/
theorem keeps_replaced_iff {dest : Path} (hc : Collides P t source dest) :
    Keeps P t source
        (renameEntity P (t.DirAt (P.key source)) source dest false (settled (t.remove (P.key dest)))) ↔
      ¬ (t.Exists (P.key source) ∧ (P.key dest <+: P.key source ∨ P.key source <+: P.key dest)) := by
  have hne : P.key source ≠ [] ∨ P.key dest ≠ [] := by
    by_contra hn
    push Not at hn
    obtain ⟨h1, h2⟩ := hn
    have h1 : source = [] := by simpa [Platform.key] using h1
    have h2 : dest = [] := by simpa [Platform.key] using h2
    have hdiffers := hc.2.1
    simp [h1, h2, Platform.equals] at hdiffers
  by_cases hs : t.Exists (P.key source)
  · by_cases hrel : P.key dest <+: P.key source ∨ P.key source <+: P.key dest
    · exact iff_of_false (not_keeps_of_deleted P t source hs hne hc.2.2 hrel) fun h => h ⟨hs, hrel⟩
    · refine iff_of_true ?_ fun h => hrel h.2
      push Not at hrel
      have hsome : (t.node (P.key source)).isSome := by
        rcases hs with h0 | hs
        · exact absurd (h0 ▸ List.nil_prefix) hrel.2
        · exact hs
      exact keeps_of_deleted P t source (kindIs_of_isSome hsome) hc.2.2 hrel.1 hrel.2
  · exact iff_of_true (keeps_of_gone P t source hs) fun h => hs h.1

/-- A case-only rename keeps the source unless it stops half-way. -/
theorem keeps_caseOnly_iff {dest : Path} (hco : P.isCaseOnlyRename source dest = true) :
    Keeps P t source (renameEntity P (t.DirAt (P.key source)) source dest true (settled t)) ↔
      ¬ (t.Exists (P.key source) ∧ StopsHalfway P t source dest) := by
  have hlen := P.length_of_caseOnly hco
  rcases renameEntity_viaTemp P t (t.DirAt (P.key source)) hlen with
    ⟨t', he, -, hway, hnode⟩ | ⟨t', he, hk, hne, hway, hgone, -⟩ | ⟨he, hn⟩
  · refine iff_of_true ?_ fun h => hway.elim h.2.2.1 h.2.2.2
    rw [he]
    intro r
    simp only [settled]
    rw [hnode, if_pos (List.prefix_append _ _), ← P.length_key (p := dest), List.drop_left]
  · refine iff_of_false ?_ fun h => h ⟨Or.inr hk.isSome, hco, hne, hway⟩
    rw [he]
    intro hkeep
    have h0 := hkeep []
    have hsome := hk.isSome
    rw [← P.key source |>.append_nil, ← h0, List.append_nil] at hsome
    simp [settled, hgone] at hsome
  · refine iff_of_true (by rw [he]; exact fun _ => rfl) ?_
    rintro ⟨hs, -, hne, hway⟩
    have hdest := isSome_of_not_makesWay hway
    have hsome : (t.node (P.key source)).isSome := by
      refine hs.resolve_left fun h0 => hne ?_
      have h1 : source.length = 0 := by simpa using congrArg List.length h0
      have h2 : dest = [] := List.eq_nil_of_length_eq_zero (by omega)
      rw [h0, h2]
      rfl
    exact hn ⟨kindIs_of_isSome hsome, dirAt_dropLast t hdest⟩

/-- **`move` keeps the source exactly if it neither deletes its own nor stops half-way.** -/
theorem move_keeps_iff :
    Keeps P t source (move P source destDir replace renameTo (settled t)) ↔
      ¬ (t.Exists (P.key source) ∧
        (DeletesOwn P t source replace (moveDest P t source destDir renameTo) ∨
          StopsHalfway P t source (moveDest P t source destDir renameTo))) := by
  generalize hdest : moveDest P t source destDir renameTo = dest
  rw [move_settled P t source destDir replace renameTo dest hdest.symm]
  by_cases hc : Collides P t source dest
  · have hco : ¬ StopsHalfway P t source dest := by
      rintro ⟨h, -⟩
      rw [hc.1] at h
      simp at h
    rw [if_pos hc, or_iff_left hco]
    cases replace with
    | false =>
      rw [if_neg (by simp)]
      exact iff_of_true (fun _ => rfl) fun h => by simpa using h.2.1
    | true =>
      rw [if_pos rfl, keeps_replaced_iff P t source hc]
      simp [DeletesOwn, hc]
  · have hno : ¬ DeletesOwn P t source replace dest := fun h => hc h.2.1
    rw [if_neg hc, or_iff_right hno]
    cases hco : P.isCaseOnlyRename source dest with
    | false =>
      refine iff_of_true (keeps_direct P t source) ?_
      rintro ⟨-, h, -⟩
      simp [hco] at h
    | true => exact keeps_caseOnly_iff P t source hco

end Move

/-- A folder `x` with a file `x` in it. -/
def nested : DirTree Text := DirTree.ofEntries
  [([['x']], ⟨['x'], .dir⟩), ([['x'], ['x']], ⟨['x'], .file ['n', 'o', 't', 'e']⟩)] (by decide)

/-- **Moved up onto the folder it lies in, a file is deleted with it.** -/
theorem move_loses : ¬ ∀ (P : Platform) (t : DirTree Text) (source destDir : Path) (replace : Bool)
    (renameTo : Option Text), t.Exists (P.key source) →
      Keeps P t source (move P source destDir replace renameTo (settled t)) := by
  intro h
  have hk := h posix nested [['x'], ['x']] [] true none (by decide) []
  revert hk
  decide

/-! ### Renaming and moving keep the others -/

/-- A call that is not to replace anything. -/
inductive Request
  | rename (path : Path) (newName : Text)
  | move (source destDir : Path) (renameTo : Option Text)

namespace Request

/-- The entry to be renamed or moved. -/
def source : Request → Path
  | .rename path _ => path
  | .move source _ _ => source

/-- Where it is to go. -/
def dest (P : Platform) (t : DirTree Text) : Request → Path
  | .rename path newName => join (dirname path) (P.renameName (t.DirAt (P.key path)) newName)
  | .move source destDir renameTo => moveDest P t source destDir renameTo

def run (P : Platform) (t : DirTree Text) : Request → EStateM.Result FsError World Path
  | .rename path newName => FileSystem.rename P path newName (settled t)
  | .move source destDir renameTo => FileSystem.move P source destDir false renameTo (settled t)

end Request

/-- Every entry that is not the source, nor below it, is as it was. -/
def Undisturbed (t : DirTree Text) (source : Path) (t' : DirTree Text) : Prop :=
  ∀ q, ¬ source <+: q → (t.node q).isSome → t'.node q = t.node q

/-- No other entry is changed, and the call throws if one is at the destination. -/
def SparesOthers (P : Platform) (t : DirTree Text) (source dest : Path)
    (result : EStateM.Result FsError World Path) : Prop :=
  Undisturbed t (P.key source) (after result) ∧
    (t.Exists (P.key dest) → P.key dest ≠ P.key source → Throws result)

/-- A case-only rename onto another entry that makes way. -/
def Overwrites (P : Platform) (t : DirTree Text) (source dest : Path) : Prop :=
  P.isCaseOnlyRename source dest = true ∧ P.key source ≠ P.key dest ∧ (t.node (P.key source)).isSome ∧
    (t.node (P.key dest)).isSome ∧ MakesWay P t (t.DirAt (P.key source)) (P.key dest)

section Spare
variable {P : Platform} {t : DirTree Text} {source dest : Path}

/-- A call that throws at once spares all. -/
theorem sparesOthers_error (e : FsError) : SparesOthers P t source dest (.error e (settled t)) :=
  ⟨fun _ _ _ => rfl, fun _ _ => trivial⟩

/-- A direct rename onto nothing, or onto the source itself. -/
theorem sparesOthers_direct (h : t.Exists (P.key dest) → P.key dest = P.key source) :
    SparesOthers P t source dest
      (renameEntity P (t.DirAt (P.key source)) source dest false (settled t)) := by
  rcases renameEntity_direct P t (t.DirAt (P.key source)) source dest with ⟨hR, he⟩ | ⟨-, he⟩
  · rw [he]
    refine ⟨fun q hq hs => ?_, fun hex hne => absurd (h hex) hne⟩
    simp only [after, settled]
    rw [hR.node_tree, if_neg, if_neg hq]
    intro hp
    have hex := DirTree.exists_of_prefix hp (Or.inr hs)
    exact hq (h hex ▸ hp)
  · rw [he]
    exact sparesOthers_error _

/-- The case-only rename. -/
theorem sparesOthers_viaTemp (hco : P.isCaseOnlyRename source dest = true) :
    SparesOthers P t source dest
      (renameEntity P (t.DirAt (P.key source)) source dest true (settled t)) ↔
      ¬ Overwrites P t source dest := by
  have hlen := P.length_of_caseOnly hco
  rcases renameEntity_viaTemp P t (t.DirAt (P.key source)) hlen with
    ⟨t', he, hk, hway, hnode⟩ | ⟨t', he, hk, hne, hway, -, hkeep⟩ | ⟨he, hn⟩
  · rw [he]
    have hsome := hk.isSome
    constructor
    · rintro ⟨-, hthrow⟩ ⟨-, hne, -, hd, -⟩
      exact hthrow (Or.inr hd) hne.symm
    · intro hno
      have hsame : t.Exists (P.key dest) → P.key dest = P.key source := by
        intro hex
        by_contra hne
        have hd : (t.node (P.key dest)).isSome := by
          refine hex.resolve_left fun h0 => ?_
          have h1 : dest.length = 0 := by simpa using congrArg List.length h0
          have h2 : source = [] := List.eq_nil_of_length_eq_zero (by omega)
          simp [h2, Platform.key] at hsome
        exact hno ⟨hco, fun h => hne h.symm, hsome, hd, hway.resolve_left fun h => hne h.symm⟩
      refine ⟨fun q hq hs => ?_, fun hex hne => absurd (hsame hex) hne⟩
      simp only [after, settled]
      rw [hnode, if_neg, if_neg hq]
      intro hp
      exact hq (hsame (DirTree.exists_of_prefix hp (Or.inr hs)) ▸ hp)
  · rw [he]
    exact iff_of_true ⟨hkeep, fun _ _ => trivial⟩ fun h => hway h.2.2.2.2
  · rw [he]
    refine iff_of_true (sparesOthers_error _) ?_
    rintro ⟨-, -, hs, hd, -⟩
    exact hn ⟨kindIs_of_isSome hs, dirAt_dropLast t hd⟩

/-- What `rename` does, by its checks. -/
theorem rename_checks (w : World) (path : Path) (newName : Text)
    (hdest : dest = (Request.rename path newName).dest P w.tree) :
    (∃ e, FileSystem.rename P path newName w = .error e w ∧
      (P.renameName (w.tree.DirAt (P.key path)) newName = [] ∨
        P.isCaseOnlyRename path dest = false ∧ w.tree.Exists (P.key dest))) ∨
    (FileSystem.rename P path newName w = .ok path w ∧ P.equals dest path = true) ∨
    (FileSystem.rename P path newName w =
        renameEntity P (w.tree.DirAt (P.key path)) path dest (P.isCaseOnlyRename path dest) w ∧
      P.renameName (w.tree.DirAt (P.key path)) newName ≠ [] ∧ P.equals dest path = false ∧
        (P.isCaseOnlyRename path dest = false → ¬ w.tree.Exists (P.key dest))) := by
  have hp : pathExists P dest w = .ok (decide (w.tree.Exists (P.key dest))) w := rfl
  simp only [FileSystem.rename, directoryExists, bind, EStateM.bind]
  rw [show join (dirname path) (P.renameName (w.tree.DirAt (P.key path)) newName) = dest from hdest.symm]
  by_cases hname : P.renameName (w.tree.DirAt (P.key path)) newName = []
  · rw [if_pos hname]
    exact Or.inl ⟨_, rfl, Or.inl hname⟩
  rw [if_neg hname]
  by_cases heq : P.equals dest path = true
  · rw [if_pos heq]
    exact Or.inr (Or.inl ⟨rfl, heq⟩)
  rw [if_neg heq]
  simp only [EStateM.bind, hp]
  by_cases hc : (!P.isCaseOnlyRename path dest && decide (w.tree.Exists (P.key dest))) = true
  · rw [if_pos hc]
    exact Or.inl ⟨_, rfl, Or.inr (by simpa using hc)⟩
  · rw [if_neg hc]
    refine Or.inr (Or.inr ⟨rfl, hname, Bool.eq_false_iff.mpr heq, fun hco hex => hc ?_⟩)
    simp [hco, hex]

theorem rename_run (w : World) (path : Path) (newName : Text)
    (hdest : dest = (Request.rename path newName).dest P w.tree) :
    (∃ e, FileSystem.rename P path newName w = .error e w ∧
      (P.renameName (w.tree.DirAt (P.key path)) newName = [] ∨ P.isCaseOnlyRename path dest = false)) ∨
    (FileSystem.rename P path newName w = .ok path w ∧ P.equals dest path = true) ∨
    (FileSystem.rename P path newName w =
        renameEntity P (w.tree.DirAt (P.key path)) path dest (P.isCaseOnlyRename path dest) w ∧
      (P.isCaseOnlyRename path dest = false → ¬ w.tree.Exists (P.key dest))) := by
  rcases rename_checks w path newName hdest with ⟨e, he, hwhy⟩ | hsame | ⟨he, -, -, hfree⟩
  · exact Or.inl ⟨e, he, hwhy.imp_right And.left⟩
  · exact Or.inr (Or.inl hsame)
  · exact Or.inr (Or.inr ⟨he, hfree⟩)

/-- An empty name is no change of case. -/
theorem caseOnly_of_empty {path : Path} (hne : path ≠ []) :
    P.isCaseOnlyRename path (join (dirname path) []) = false := by
  cases h : P.isCaseOnlyRename path (join (dirname path) []) with
  | false => rfl
  | true =>
    have hlen := P.length_of_caseOnly h
    have hpos := List.length_pos_of_ne_nil hne
    simp [join, components, descend, dirname] at hlen
    omega

end Spare

/-- Two notes whose names differ in case. -/
def twoCases : DirTree Text := DirTree.ofEntries
  [(["a.md".toList], ⟨"a.md".toList, .file ['1']⟩), (["A.md".toList], ⟨"A.md".toList, .file ['2']⟩)]
  (by decide)

end Notely.Desktop.FileSafety
