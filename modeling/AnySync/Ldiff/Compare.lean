import AnySync.Ldiff.Contents
import AnySync.Ldiff.Rounds

/-!
# `CompareDiff` and `Diff`

Two entry points with one loop of rounds. `Diff` looks elements up in maps and finds the ids with
different heads; `CompareDiff` searches lists and finds, in addition, which head is the greater one.

The main result is `compareDiff_eq_split`.
-/

namespace Ldiff

/-- The changed ids in two lists: those of `p`, and the others. -/
def DiffCtx.split (p : GoString → Bool) (dctx : DiffCtx) : DiffCtx :=
  { dctx with changedIds := dctx.changedIds.filter fun id => !p id
              theirChangedIds := dctx.changedIds.filter p }

namespace Container

/-- `Element`, or nothing. -/
def element (d : Container) (id : GoString) : Option Element :=
  d.elements.find? fun el => el.id = id

/-- The head of the element with an id. -/
def headOf (d : Container) (id : GoString) : Option GoString := (d.element id).map Element.head

/-- The remote has a greater head. -/
def theirGreater (d dl : Container) (id : GoString) : Bool :=
  match d.headOf id, dl.headOf id with
  | some head, some theirHead => head < theirHead
  | _, _ => false

end Container

/-! ## Elements -/

section Elements

variable {els my other : List Element} {el : Element} {dctx : DiffCtx} {p : GoString → Bool}

/-- The map and the list have the same element for an id. -/
theorem lookup_toMap (hnodup : (els.map Element.id).Nodup) (id : GoString) :
    (toMap els).lookup id = (els.find? fun el => el.id = id).map Element.head := by
  have hset : toMap els = Contents.set ∅ els := rfl
  rw [hset]
  cases hfind : els.find? fun el => el.id = id with
  | none =>
    have hne := List.find?_eq_none.mp hfind
    rw [Contents.lookup_set_of_forall_ne fun el hel hid => hne el hel (decide_eq_true hid)]
    simp
  | some el =>
    obtain rfl : el.id = id := by simpa using List.find?_some hfind
    have hel := List.mem_of_find?_eq_some hfind
    refine Contents.lookup_set_of_mem hel fun el' hel' hid => ?_
    rw [List.inj_on_of_nodup_map hnodup hel' hel hid]

/-- One element of the own list, in both calls. -/
theorem compareElements_step (hother : (other.map Element.id).Nodup)
    (hp : ∀ el' ∈ other, el'.id = el.id → p el.id = decide (el.head < el'.head)) :
    (match findGreater other el with
      | (false, _, _) => { dctx.split p with removedIds := (dctx.split p).removedIds ++ [el.id] }
      | (true, true, _) => dctx.split p
      | (true, false, true) =>
        { dctx.split p with theirChangedIds := (dctx.split p).theirChangedIds ++ [el.id] }
      | (true, false, false) =>
        { dctx.split p with changedIds := (dctx.split p).changedIds ++ [el.id] }) =
      (match (toMap other).lookup el.id with
        | none => { dctx with removedIds := dctx.removedIds ++ [el.id] }
        | some head =>
          if head = el.head then dctx
          else { dctx with changedIds := dctx.changedIds ++ [el.id] }).split p := by
  rw [lookup_toMap hother, findGreater]
  cases hfind : other.find? fun el' => el'.id = el.id with
  | none => rfl
  | some el' =>
    have hid : el'.id = el.id := by simpa using List.find?_some hfind
    have hgreater := hp el' (List.mem_of_find?_eq_some hfind) hid
    by_cases hhead : el'.head = el.head
    · simp [hhead]
    · by_cases hlt : el.head < el'.head
      · simp [hhead, hlt, DiffCtx.split, hgreater]
      · simp [hhead, hlt, DiffCtx.split, hgreater]

/-- One element of the other list, in both calls. -/
theorem compareElements_step_other (hmy : (my.map Element.id).Nodup) :
    (match findGreater my el with
      | (false, _, _) => { dctx.split p with newIds := (dctx.split p).newIds ++ [el.id] }
      | (true, _, _) => dctx.split p) =
      (match (toMap my).lookup el.id with
        | none => { dctx with newIds := dctx.newIds ++ [el.id] }
        | some _ => dctx).split p := by
  rw [lookup_toMap hmy, findGreater]
  cases hfind : my.find? fun el' => el'.id = el.id with
  | none => rfl
  | some el' => by_cases hhead : el'.head = el.head <;> simp [hhead]

/-- Both loops at once: the second one on the images of the states of the first one. -/
theorem foldl_map_of_mem {σ τ α : Type*} {f : σ → α → σ} {g : τ → α → τ} (φ : σ → τ) {l : List α}
    (hstep : ∀ s, ∀ x ∈ l, g (φ s) x = φ (f s x)) (s : σ) : l.foldl g (φ s) = φ (l.foldl f s) := by
  induction l generalizing s with
  | nil => rfl
  | cons x l ih =>
    rw [List.foldl_cons, hstep s x List.mem_cons_self,
      ih fun s y hy => hstep s y (List.mem_cons_of_mem _ hy), List.foldl_cons]

/-- The lists of one range, in both calls. -/
theorem compareElementsGreater_split (hmy : (my.map Element.id).Nodup)
    (hother : (other.map Element.id).Nodup)
    (hp : ∀ el ∈ my, ∀ el' ∈ other, el'.id = el.id → p el.id = decide (el.head < el'.head)) :
    compareElementsGreater (dctx.split p) my other =
      (compareElementsEqual dctx my other).split p := by
  unfold compareElementsGreater compareElementsEqual
  dsimp only
  rw [foldl_map_of_mem (DiffCtx.split p) fun dctx el hel =>
    compareElements_step hother (hp el hel)]
  exact foldl_map_of_mem _ (fun dctx el _ => compareElements_step_other hmy) _

end Elements

namespace Container

variable {d dl : Container} {dctx dctx' : DiffCtx} {r : Range} {toSend : List Range} {fuel : ℕ}
  {compareFunc : DiffCtx → List Element → List Element → DiffCtx}

/-! ## Answers -/

variable {my other : List Element}

/-- Every id occurs once. -/
def Unique (d : Container) : Prop := (d.elements.map Element.id).Nodup

theorem headOf_of_mem {el : Element} (hd : d.Unique) (hel : el ∈ d.elements) :
    d.headOf el.id = some el.head := by
  have hmap := lookup_toMap hd el.id
  rw [headOf, element, ← hmap]
  refine Contents.lookup_set_of_mem hel fun el' hel' hid => ?_
  rw [List.inj_on_of_nodup_map hd hel' hel hid]

/-- The elements of an answer are elements of the container. -/
theorem getRange_elements_sublist : (d.getRange r).elements.Sublist d.elements := by
  have hwithin : ((within d.sl r.tuple).map HashedElement.toElement).Sublist d.elements :=
    ((List.takeWhile_sublist _).trans (List.dropWhile_sublist _)).map _
  unfold getRange
  dsimp only
  split
  · split
    · exact hwithin
    · exact List.nil_sublist _
  · exact hwithin

section

variable (hd : d.Unique) (hdl : dl.Unique)

include hd hdl

/-- Elements of the two containers. -/
theorem compareElementsGreater_sublist (hmy : my.Sublist d.elements)
    (hother : other.Sublist dl.elements) :
    compareElementsGreater (dctx.split (d.theirGreater dl)) my other =
      (compareElementsEqual dctx my other).split (d.theirGreater dl) := by
  refine compareElementsGreater_split (hd.sublist (hmy.map _)) (hdl.sublist (hother.map _)) ?_
  intro el hel el' hel' hid
  have hhead := headOf_of_mem hd (hmy.subset hel)
  have hhead' := headOf_of_mem hdl (hother.subset hel')
  rw [hid] at hhead'
  simp [theirGreater, hhead, hhead']

theorem compareResults_split :
    d.compareResults compareElementsGreater (dctx.split (d.theirGreater dl)) r (d.getRange r)
        (dl.getRange r) =
      (d.compareResults compareElementsEqual dctx r (d.getRange r) (dl.getRange r)).split
        (d.theirGreater dl) := by
  unfold compareResults
  split_ifs
  · rfl
  · exact compareElementsGreater_sublist hd hdl getRange_elements_sublist getRange_elements_sublist
  · exact compareElementsGreater_sublist hd hdl getRange_elements_sublist getRange_elements_sublist
  · rfl
  · rfl

/-! ## Rounds -/

theorem diffRound_split :
    d.diffRound dl compareElementsGreater (dctx.split (d.theirGreater dl)) toSend =
      (d.diffRound dl compareElementsEqual dctx toSend).split (d.theirGreater dl) :=
  foldl_map_of_mem _ (fun _ _ _ => compareResults_split hd hdl) _

theorem diffRounds_split :
    d.diffRounds dl compareElementsGreater fuel (dctx.split (d.theirGreater dl)) toSend =
      (d.diffRounds dl compareElementsEqual fuel dctx toSend).map
        (DiffCtx.split (d.theirGreater dl)) := by
  induction fuel generalizing dctx toSend with
  | zero => cases toSend <;> rfl
  | succ fuel ih =>
    cases toSend with
    | nil => rfl
    | cons r toSend =>
      rw [diffRounds, diffRounds, diffRound_split hd hdl]
      generalize d.diffRound dl compareElementsEqual dctx (r :: toSend) = dctx₁
      exact @ih { dctx₁ with prepare := [] } dctx₁.prepare

end

theorem remoteRound_remote : d.remoteRound compareFunc dctx toSend (toSend.map dl.getRange) =
    d.diffRound dl compareFunc dctx toSend := by
  rw [remoteRound, diffRound, List.zip_map_right, List.foldl_map]
  induction toSend generalizing dctx with
  | nil => rfl
  | cons r toSend ih => exact ih

/-- Against a container, the rounds are those of two containers. -/
theorem remoteRounds_remote {round : ℕ} :
    d.remoteRounds dl.remote compareFunc fuel round (dctx, toSend) =
      d.diffRounds dl compareFunc fuel dctx toSend := by
  induction fuel generalizing round dctx toSend with
  | zero => cases toSend <;> rfl
  | succ fuel ih =>
    cases toSend with
    | nil => rfl
    | cons r toSend =>
      rw [remoteRounds, diffRounds, nextRound]
      · exact remoteRound_remote (d := d) ▸ ih
      · simp

theorem diffRemote_remote : d.diffRemote dl.remote fuel = diff fuel d dl := remoteRounds_remote

/-- Both calls ask for the same ranges, whatever the remote answers. -/
theorem sent_congr {remote : Remote}
    {compareFunc' : DiffCtx → List Element → List Element → DiffCtx}
    (hkeeps : KeepsPrepare compareFunc) (hkeeps' : KeepsPrepare compareFunc') (round : ℕ) :
    d.sent remote compareFunc round = d.sent remote compareFunc' round := by
  induction round with
  | zero => rfl
  | succ round ih => rw [sent_succ hkeeps, sent_succ hkeeps', ih]

/-! ## Changed ids -/

/-- The heads of the changed ids differ. -/
def HeadsDiffer (d dl : Container) (dctx : DiffCtx) : Prop :=
  ∀ id ∈ dctx.changedIds, ∃ head theirHead,
    d.headOf id = some head ∧ dl.headOf id = some theirHead ∧ theirHead ≠ head

section

variable (hd : d.Unique) (hdl : dl.Unique)

include hd hdl

theorem HeadsDiffer.compareElementsEqual (hmy : my.Sublist d.elements)
    (hother : other.Sublist dl.elements) (h : d.HeadsDiffer dl dctx) :
    d.HeadsDiffer dl (compareElementsEqual dctx my other) := by
  rw [compareElementsEqual_eq]
  intro id hid
  rcases List.mem_append.mp hid with hid | hid
  · exact h id hid
  · obtain ⟨el, hel, rfl⟩ := List.mem_map.mp hid
    obtain ⟨hel, hany⟩ := List.mem_filter.mp hel
    rw [lookup_toMap (hdl.sublist (hother.map _))] at hany
    cases hfind : other.find? fun el' => el'.id = el.id with
    | none => simp [hfind] at hany
    | some el' =>
      have hid' : el'.id = el.id := by simpa using List.find?_some hfind
      have hhead' := headOf_of_mem hdl (hother.subset (List.mem_of_find?_eq_some hfind))
      refine ⟨el.head, el'.head, headOf_of_mem hd (hmy.subset hel), hid' ▸ hhead', ?_⟩
      simpa [hfind] using hany

theorem HeadsDiffer.compareResults (h : d.HeadsDiffer dl dctx) :
    d.HeadsDiffer dl
      (d.compareResults Ldiff.compareElementsEqual dctx r (d.getRange r) (dl.getRange r)) := by
  unfold Container.compareResults
  split_ifs
  · exact h
  · exact h.compareElementsEqual hd hdl getRange_elements_sublist getRange_elements_sublist
  · exact h.compareElementsEqual hd hdl getRange_elements_sublist getRange_elements_sublist
  · exact h
  · exact h

theorem HeadsDiffer.diffRound (h : d.HeadsDiffer dl dctx) :
    d.HeadsDiffer dl (d.diffRound dl Ldiff.compareElementsEqual dctx toSend) := by
  induction toSend generalizing dctx with
  | nil => exact h
  | cons r toSend ih => exact ih (h.compareResults hd hdl)

theorem HeadsDiffer.diffRounds (h : d.HeadsDiffer dl dctx)
    (hok : d.diffRounds dl Ldiff.compareElementsEqual fuel dctx toSend = .ok dctx') :
    d.HeadsDiffer dl dctx' := by
  induction fuel generalizing dctx toSend with
  | zero =>
    cases toSend with
    | nil => exact Except.ok.inj hok ▸ h
    | cons => cases hok
  | succ fuel ih =>
    cases toSend with
    | nil => exact Except.ok.inj hok ▸ h
    | cons r toSend =>
      have hround : d.HeadsDiffer dl
          { d.diffRound dl Ldiff.compareElementsEqual dctx (r :: toSend) with prepare := [] } :=
        h.diffRound hd hdl
      exact ih hround hok

end

/-! ## Containers after runs -/

theorem Any.unique {H : Hashing} {divideFactor compareThreshold : ℤ}
    (hd : Any H divideFactor compareThreshold d) : d.Unique := by
  obtain ⟨fuel, ord, ops, hrun, -⟩ := hd
  rw [Unique, elements, List.map_map]
  exact (run_holds hrun).nodup

/-- `CompareDiff` and `Diff` of two containers ask for the same ranges, and return together. The
result of `CompareDiff` is that of `Diff`, with the changed ids split into those for which the
remote has the greater head and those for which the own head is the greater one. -/
theorem compareDiff_eq_split {H : Hashing}
    {divideFactor compareThreshold divideFactor' compareThreshold' : ℤ}
    (hd : Any H divideFactor compareThreshold d) (hdl : Any H divideFactor' compareThreshold' dl) :
    (∀ round, d.sent dl.remote compareElementsGreater round =
        d.sent dl.remote compareElementsEqual round) ∧
      ∀ fuel, d.compareDiffRemote dl.remote fuel =
          (d.diffRemote dl.remote fuel).map (DiffCtx.split (d.theirGreater dl)) ∧
        ∀ dctx, d.diffRemote dl.remote fuel = .ok dctx → ∀ id ∈ dctx.changedIds,
          ∃ head theirHead, d.headOf id = some head ∧ dl.headOf id = some theirHead ∧
            (id ∈ (dctx.split (d.theirGreater dl)).theirChangedIds ↔ head < theirHead) ∧
            (id ∈ (dctx.split (d.theirGreater dl)).changedIds ↔ theirHead < head) := by
  refine ⟨sent_congr keepsPrepare_greater keepsPrepare_equal, fun fuel => ⟨?_, ?_⟩⟩
  · rw [compareDiffRemote, diffRemote, firstRound, remoteRounds_remote, remoteRounds_remote]
    change d.diffRounds dl compareElementsGreater fuel (DiffCtx.empty.split (d.theirGreater dl)) _ =
      _
    exact diffRounds_split hd.unique hdl.unique
  · intro dctx hok id hid
    rw [diffRemote_remote] at hok
    have hempty : d.HeadsDiffer dl .empty := fun id hid => absurd hid List.not_mem_nil
    obtain ⟨head, theirHead, hhead, htheirs, hne⟩ :=
      hempty.diffRounds hd.unique hdl.unique hok id hid
    refine ⟨head, theirHead, hhead, htheirs, ?_, ?_⟩
    · simp [DiffCtx.split, hid, theirGreater, hhead, htheirs]
    · rw [DiffCtx.split, List.mem_filter, theirGreater, hhead, htheirs]
      simpa [hid] using ⟨fun hle => lt_of_le_of_ne hle hne, le_of_lt⟩

end Container

namespace Sample

/-- Values of `xxhash.Sum64` and of `blake3` for two containers with the ids "a" and "c". -/
def twoHeads : Hashing :=
  let ac := 0x4c0d05aab37ae964ce922552a23afec473b72e18006b1c29ef1ef89c514a76bb
  let cd := 0xe8cf3ad3c77be0828dfb8fffc06fed22ab037dfa68a16049fe8267f70265afe2
  let ofCdAc := 0xcdb696769e8308f954a55b5774c0d118e1bd64c671ff9e54f8117a91e83b4afd
  let ad := 0x527a06a5afcf88b465c0fbba04f87364ab003caad73b58778258654d0bb8d638
  let cc := 0x9c202f2fabd12f758a12b449944f5cdaeadf39132680667543033158023bc805
  let ofCcAd := 0x1f74af61e3f2e0474c22d9a4eaba85182a5293107a4ad51aed84cedcb8f101b8
  .ofTable
    [([97], 0xd24ec4f1a98c6e5b), ([99], 0xa3dad144c40657ed)]
    [([], 0xaf1349b9f5f9a1a6a0404dea36dcc9499bcb25c9adc112b7cc9a93cae41f3262),
      ([97, 99], ac), ([99, 100], cd), ([97, 100], ad), ([99, 99], cc),
      (bytesOfNat 32 cd ++ bytesOfNat 32 ac, ofCdAc),
      (bytesOfNat 32 cc ++ bytesOfNat 32 ad, ofCcAd),
      (bytesOfNat 32 ofCdAc, 0x2a027371fe8b9250ac071603da326b7e2e6e58eb79969bff1808449be15a7218),
      (bytesOfNat 32 ofCcAd, 0xa2523dfc4989c5e8f4908cf9b8c1c20ba681e38c1e1b2f22f674a8098d7ab396)]

/-- The heads "c" and "d". -/
def local₂ : Container := container twoHeads [.set [elementA, elementC] .listed]

/-- The heads "d" and "c". -/
def remote₂ : Container := container twoHeads [.set [⟨[97], [100]⟩, ⟨[99], [99]⟩] .listed]

end Sample

open Sample

/-- The remote has the greater head for "a" and the smaller one for "c". -/
theorem compareDiff_eq_split_twoHeads :
    local₂.diffRemote remote₂.remote 9 =
        .ok { DiffCtx.empty with changedIds := [[99], [97]] } ∧
      local₂.compareDiffRemote remote₂.remote 9 =
        .ok { DiffCtx.empty with changedIds := [[99]], theirChangedIds := [[97]] } := by
  have hd : Container.Any twoHeads 2 1 local₂ :=
    any_container (by decide +kernel)
  have hdl : Container.Any twoHeads 2 1 remote₂ :=
    any_container (by decide +kernel)
  have hdiff : local₂.diffRemote remote₂.remote 9 =
      .ok { DiffCtx.empty with changedIds := [[99], [97]] } := by
    decide +kernel
  refine ⟨hdiff, ?_⟩
  rw [((Container.compareDiff_eq_split hd hdl).2 9).1, hdiff]
  decide +kernel

end Ldiff
