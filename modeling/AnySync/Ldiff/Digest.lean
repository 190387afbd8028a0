import AnySync.Ldiff.Runs

/-!
# What the digest of a container says

Different inputs of a hash may have one digest. `elements_eq_of_hash_eq` says what equal digests
mean if they do not, for containers that may have different divisions.
-/

/-- Lists that are written one after the other in pieces of one length, some of them empty. If the
same pieces stand for the same lists, the lists are the same. -/
theorem List.flatMap_eq_of_pieces {α β γ δ : Type} {k : ℕ} {f : α → List γ} {f' : β → List γ}
    {g : α → List δ} {g' : β → List δ} {l : List α} {l' : List β}
    (hf : ∀ a ∈ l, f a = [] ∧ g a = [] ∨ (f a).length = k + 1)
    (hf' : ∀ b ∈ l', f' b = [] ∧ g' b = [] ∨ (f' b).length = k + 1)
    (hg : ∀ a ∈ l, ∀ b ∈ l', f a = f' b → g a = g' b) (heq : l.flatMap f = l'.flatMap f') :
    l.flatMap g = l'.flatMap g' := by
  induction l generalizing l' with
  | nil =>
    -- only empty pieces are left on the other side
    induction l' with
    | nil => rfl
    | cons b l' ih =>
      rw [flatMap_cons, List.flatMap_nil, eq_comm, List.append_eq_nil_iff] at heq
      obtain ⟨hb, hf'⟩ := List.forall_mem_cons.mp hf'
      rcases hb with ⟨-, hb⟩ | hb
      · rw [flatMap_cons, hb, nil_append]
        exact ih hf' (fun _ ha => absurd ha List.not_mem_nil) heq.2.symm
      · rw [heq.1] at hb
        cases hb
  | cons a l ih =>
    obtain ⟨ha, hf⟩ := List.forall_mem_cons.mp hf
    rcases ha with ⟨hfa, hga⟩ | ha
    · rw [flatMap_cons, hfa, nil_append] at heq
      rw [flatMap_cons, hga, nil_append]
      exact ih hf hf' (fun a ha => hg a (mem_cons_of_mem _ ha)) heq
    · induction l' with
      | nil =>
        rw [flatMap_cons, List.flatMap_nil, List.append_eq_nil_iff] at heq
        rw [heq.1] at ha
        cases ha
      | cons b l' ih' =>
        obtain ⟨hb, hf'⟩ := List.forall_mem_cons.mp hf'
        rcases hb with ⟨hfb, hgb⟩ | hb
        · rw [flatMap_cons (x := b), hfb, nil_append] at heq
          rw [flatMap_cons (x := b), hgb, nil_append]
          exact ih' hf' (fun a ha b hb => hg a ha b (mem_cons_of_mem _ hb)) heq
        · rw [flatMap_cons, flatMap_cons] at heq ⊢
          obtain ⟨hhead, htail⟩ := List.append_inj heq (ha.trans hb.symm)
          rw [hg a List.mem_cons_self b List.mem_cons_self hhead]
          congr 1
          exact ih hf hf' (fun a ha b hb => hg a (mem_cons_of_mem _ ha) b
            (mem_cons_of_mem _ hb)) htail

namespace Ldiff

open HashedElement
open List (flatMap_cons nil_append mem_cons_of_mem)

namespace Container

/-- What is hashed for a range, the elements of a range that is not divided or the digests of the
parts of a divided range. -/
inductive Input
  | elements (l : List Element)
  | digests (l : Bytes)
deriving DecidableEq

/-- How it is written: elements without separators. -/
def Input.bytes : Input → Bytes
  | .elements l => l.flatMap fun e => e.id ++ e.head
  | .digests l => l

/-- The input for a range. -/
def input (d : Container) (c : RangeTuple) (rng : HashRange) : Input :=
  if rng.isDivided then
    .digests ((genTupleRanges c d.ranges.divideFactor).flatMap d.ranges.hashAt)
  else .elements ((within d.sl c).map toElement)

/-- The inputs that are hashed for the ranges of a container: all but empty lists of elements. -/
def inputs (d : Container) : Set Input :=
  { i | i ≠ .elements [] ∧ ∃ c p rng, d.ranges.Live c ∧ d.ranges.At c p rng ∧ i = d.input c rng }

section Digest

variable {H : Hashing} {df th df' th' : ℕ} {d d' : Container} {c c' : RangeTuple} {p : ℕ}
  {rng : HashRange}

section

variable (hd : Settled H df th d)

include hd

/-- The digest of a range is that of its input, or nothing. -/
theorem Settled.hashAt_eq (hlive : d.ranges.Live c) (hat : d.ranges.At c p rng) :
    d.ranges.hashAt c =
      if d.input c rng = .elements [] then [] else H.blake3 (d.input c rng).bytes := by
  have hfresh := hd.sound.isFresh hd.clean hlive hat
  rw [hat.hashAt_eq, input]
  unfold HashRanges.IsFresh at hfresh
  split at hfresh
  · next hdivided =>
    rw [hd.sound.shape.calcDividedHash_eq hlive hat hdivided] at hfresh
    rw [if_pos hdivided, if_neg (by simp), ← Except.ok.inj hfresh]
    rfl
  · next hdivided =>
    rw [if_neg hdivided, hfresh.1, hd.sound.shape.tuple_eq hat, calcElementsHash]
    by_cases hempty : within d.sl c = []
    · simp [hempty]
    · rw [if_neg (by simpa using hempty), if_neg (by simpa using hempty), Input.bytes,
        List.flatMap_map]

/-- The parts of a divided range have a digest of full length, or none and no elements. -/
theorem Settled.hashAt_length (hlive : d.ranges.Live c) :
    d.ranges.hashAt c = [] ∧ (within d.sl c).map toElement = [] ∨
      (d.ranges.hashAt c).length = 31 + 1 := by
  obtain ⟨p, rng, hat⟩ := hd.sound.shape.exists_at hlive
  rw [hd.hashAt_eq hlive hat]
  split
  · next hempty =>
    refine .inl ⟨rfl, ?_⟩
    unfold input at hempty
    split at hempty
    · cases hempty
    · exact Input.elements.inj hempty
  · exact .inr (H.blake3_length _)

/-- Ranges with the same digest hold the same elements. The induction is on the number of hashes
in the ranges. -/
theorem within_eq_of_hashAt_eq (hd' : Settled H df' th' d')
    (hinj : Set.InjOn (fun i => H.blake3 i.bytes) (d.inputs ∪ d'.inputs)) {n : ℕ}
    (hn : c.hi - c.lo < n) (hlive : d.ranges.Live c) (hlive' : d'.ranges.Live c')
    (heq : d.ranges.hashAt c = d'.ranges.hashAt c') :
    (within d.sl c).map toElement =
      (within d'.sl c').map toElement := by
  induction n generalizing c c' with
  | zero => omega
  | succ n ih =>
    rcases hd.hashAt_length hlive with ⟨hnil, hempty⟩ | hlength
    · rcases hd'.hashAt_length hlive' with ⟨-, hempty'⟩ | hlength'
      · rw [hempty, hempty']
      · rw [← heq, hnil] at hlength'
        cases hlength'
    obtain ⟨p, rng, hat⟩ := hd.sound.shape.exists_at hlive
    obtain ⟨p', rng', hat'⟩ := hd'.sound.shape.exists_at hlive'
    -- the inputs of the two ranges are the same
    have hhash := hd.hashAt_eq hlive hat
    have hhash' := hd'.hashAt_eq hlive' hat'
    have hne : d.input c rng ≠ .elements [] := by
      intro hempty
      rw [hhash, if_pos hempty] at hlength
      cases hlength
    have hne' : d'.input c' rng' ≠ .elements [] := by
      intro hempty
      rw [heq, hhash', if_pos hempty] at hlength
      cases hlength
    rw [if_neg hne] at hhash
    rw [if_neg hne'] at hhash'
    have hinput : d.input c rng = d'.input c' rng' := by
      refine hinj (.inl ⟨hne, c, p, rng, hlive, hat, rfl⟩)
        (.inr ⟨hne', c', p', rng', hlive', hat', rfl⟩) ?_
      exact hhash.symm.trans (heq.trans hhash')
    unfold input at hinput
    split at hinput
    · next hdivided =>
      split at hinput
      · next hdivided' =>
        -- both are divided, and their parts are compared in order
        have ht := hd.sound.shape.tiles hlive hat hdivided
        have ht' := hd'.sound.shape.tiles hlive' hat' hdivided'
        rw [hd.ordered.within_eq_flatMap ht, hd'.ordered.within_eq_flatMap ht',
          List.map_flatMap, List.map_flatMap]
        have hpart : ∀ x ∈ genTupleRanges c d.ranges.divideFactor, d.ranges.Live x :=
          fun x hx => hlive.step hat hdivided hx
        have hpart' : ∀ x ∈ genTupleRanges c' d'.ranges.divideFactor, d'.ranges.Live x :=
          fun x hx => hlive'.step hat' hdivided' hx
        refine List.flatMap_eq_of_pieces (fun x hx => hd.hashAt_length (hpart x hx))
          (fun x hx => hd'.hashAt_length (hpart' x hx)) (fun x hx x' hx' hxx' => ?_)
          (Input.digests.inj hinput)
        have hlt := width_lt hd.sound.shape.factor
          (hd.sound.shape.divided c p rng hlive hat hdivided).1 hx
        exact ih (by omega) (hpart x hx) (hpart' x' hx') hxx'
      · cases hinput
    · split at hinput
      · cases hinput
      · exact Input.elements.inj hinput

theorem Settled.hash_eq_hashAt : d.hash = d.ranges.hashAt topTuple := by
  obtain ⟨top, htop, -⟩ := hd.sound.shape.top
  rw [hash, htop.heap, htop.hashAt_eq]

/-- Containers with the same digest hold the same elements, if different inputs have different
digests. The containers may have different divisions. -/
theorem elements_eq_of_hash_eq (hd' : Settled H df' th' d')
    (hinj : Set.InjOn (fun i => H.blake3 i.bytes) (d.inputs ∪ d'.inputs)) (heq : d.hash = d'.hash) :
    d.elements = d'.elements := by
  rw [hd.hash_eq_hashAt, hd'.hash_eq_hashAt] at heq
  have hwithin := within_eq_of_hashAt_eq hd hd' hinj (Nat.lt_succ_self _) .refl .refl heq
  rwa [hd.ordered.within_topTuple, hd'.ordered.within_topTuple] at hwithin

end

/-- After every run the digests are those of the elements, no range is dirty, and the digest of
the container determines its elements if different inputs have different digests. -/
theorem Reached.fresh_and_hash_inj {divideFactor compareThreshold divideFactor' : ℤ}
    {compareThreshold' : ℤ} (hint : divideFactor < 2 ^ 63) (hint' : divideFactor' < 2 ^ 63)
    (hd : Reached H divideFactor compareThreshold (SetOk H) (fun _ _ => True) d)
    (hd' : Reached H divideFactor' compareThreshold' (SetOk H) (fun _ _ => True) d') :
    (d.ranges.dirty = [] ∧ ∀ c, d.ranges.Live c →
      ∃ p rng, d.ranges.At c p rng ∧ d.ranges.IsFresh H d.sl rng) ∧
    (Set.InjOn (fun i => H.blake3 i.bytes) (d.inputs ∪ d'.inputs) → d.hash = d'.hash →
      d.elements = d'.elements) := by
  have hsettled : ∀ {df th : ℤ} {d : Container}, df < 2 ^ 63 →
      Reached H df th (SetOk H) (fun _ _ => True) d → ∃ df th, Settled H df th d := by
    rintro df th d hint ⟨fuel, ord, ops, hrun, hok⟩
    refine ⟨_, _, run_settled ?_ hrun hok⟩
    have hhashes : (hashes : ℤ) = 2 ^ 64 := by decide
    omega
  obtain ⟨_, _, hs⟩ := hsettled hint hd
  obtain ⟨_, _, hs'⟩ := hsettled hint' hd'
  refine ⟨⟨hs.clean, fun c hc => ?_⟩, elements_eq_of_hash_eq hs hs'⟩
  obtain ⟨p, rng, hat⟩ := hs.sound.shape.exists_at hc
  exact ⟨p, rng, hat, hs.sound.isFresh hs.clean hc hat⟩

end Digest

/-! ## Runs on given elements -/

/-- The inputs for the ranges of a list. -/
def inputList (d : Container) (S : List RangeTuple) : List Input :=
  S.filterMap fun c => (d.ranges.getRange c).map (d.input c)

theorem mem_inputList {d : Container} {S : List RangeTuple} (hS : d.ranges.Closed S) {i : Input}
    (hi : i ∈ d.inputs) : i ∈ d.inputList S ∧ i ≠ .elements [] := by
  obtain ⟨hne, c, p, rng, hlive, hat, rfl⟩ := hi
  refine ⟨List.mem_filterMap.mpr ⟨c, hS.mem hlive, ?_⟩, hne⟩
  rw [hat.getRange_eq]
  rfl

end Container

namespace Sample

variable {H : Hashing} {ops : List Op}

/-- The container after a run with `divideFactor` 2 and `compareThreshold` 1. -/
def container (H : Hashing) (ops : List Op) : Container :=
  match Container.run H 70 2 1 .listed ops with
  | .ok d => d
  | .error _ => { sl := [], ranges := Container.bareTop 2 1 }

/-- Values of `xxhash.Sum64` and of `blake3` for a few elements. -/
def hashing : Hashing :=
  let eab := 0x936ecc0ec1633f27a6b32484567e8db6f3a04ebaf7f0670e9e9e20a1d9ca3bf7
  let ac := 0x4c0d05aab37ae964ce922552a23afec473b72e18006b1c29ef1ef89c514a76bb
  let cd := 0xe8cf3ad3c77be0828dfb8fffc06fed22ab037dfa68a16049fe8267f70265afe2
  let ofAc := 0x8c04ff7f7cde5e019207d2c1d899119c34e3ff9bfde5253d4e7f9e679443b7ae
  let ofCdAc := 0xcdb696769e8308f954a55b5774c0d118e1bd64c671ff9e54f8117a91e83b4afd
  .ofTable
    [([97], 0xd24ec4f1a98c6e5b), ([99], 0xa3dad144c40657ed), ([101], 0x49eac513f7718934),
      ([101, 97], 0x6fdb335ba5be472c)]
    [([], 0xaf1349b9f5f9a1a6a0404dea36dcc9499bcb25c9adc112b7cc9a93cae41f3262),
      ([101, 97, 98], eab), ([97, 99], ac), ([99, 100], cd),
      (bytesOfNat 32 eab, 0x6ac5744ddd1c984e554ce790f1e4920b94604795141783422531b3b954534648),
      (bytesOfNat 32 eab ++ bytesOfNat 32 ac,
        0xf84abf4ca70b1ec7ae47ec3dacb57aa3b1178b224ec18a8980402fb310178e36),
      (bytesOfNat 32 ac, ofAc), (bytesOfNat 32 cd ++ bytesOfNat 32 ac, ofCdAc),
      (bytesOfNat 32 ofAc, 0xebb0891758f727be31e92976c6b0f4e44da75e21310189810f1fd5932241c54a),
      (bytesOfNat 32 ofCdAc, 0x2a027371fe8b9250ac071603da326b7e2e6e58eb79969bff1808449be15a7218)]

/-- An element with the id "e" and the head "ab". -/
def elementE : Element := ⟨[101], [97, 98]⟩

/-- An element with the id "ea" and the head "b". -/
def elementEA : Element := ⟨[101, 97], [98]⟩

/-- An element with the id "a" and the head "c". -/
def elementA : Element := ⟨[97], [99]⟩

/-- An element with the id "c" and the head "d". -/
def elementC : Element := ⟨[99], [100]⟩

theorem run_eq_container (hok : (Container.run H 70 2 1 .listed ops).isOk = true) :
    Container.run H 70 2 1 .listed ops = .ok (container H ops) := by
  unfold container
  cases hrun : Container.run H 70 2 1 .listed ops with
  | ok d => rfl
  | error => simp [hrun, Except.isOk, Except.toBool] at hok

theorem reached_of_check (hcheck : (Container.run H 70 2 1 .listed ops).isOk = true ∧
      ∀ x ∈ Container.trace H 70 2 1 .listed ops,
        x.1.StepOk H 70 (Container.SetCheck H 1) (fun _ _ => True) x.2) :
    Container.Reached H 2 1 (Container.SetOk H) (fun _ _ => True) (container H ops) :=
  ⟨70, .listed, ops, run_eq_container hcheck.1, fun x hx =>
    (hcheck.2 x hx).imp (fun _ _ => Container.SetCheck.setOk) fun _ _ => id⟩

/-- Inputs for the ranges of two containers that `f` tells apart have different digests. -/
def InjCheck {γ : Type} (H : Hashing) (f : Container.Input → γ) (d d' : Container) : Prop :=
  let S := d.ranges.reachList 64 topTuple
  let S' := d'.ranges.reachList 64 topTuple
  d.ranges.Closed S ∧ d'.ranges.Closed S' ∧
    ∀ i ∈ d.inputList S ++ d'.inputList S', i ≠ .elements [] →
      ∀ j ∈ d.inputList S ++ d'.inputList S', j ≠ .elements [] →
        H.blake3 i.bytes = H.blake3 j.bytes → f i = f j

instance {γ : Type} [DecidableEq γ] (H : Hashing) (f : Container.Input → γ) (d d' : Container) :
    Decidable (InjCheck H f d d') :=
  inferInstanceAs (Decidable (_ ∧ _ ∧ _))

theorem InjCheck.eq {γ : Type} {f : Container.Input → γ} {d d' : Container}
    (hcheck : InjCheck H f d d') {i j : Container.Input} (hi : i ∈ d.inputs ∪ d'.inputs)
    (hj : j ∈ d.inputs ∪ d'.inputs) (heq : H.blake3 i.bytes = H.blake3 j.bytes) : f i = f j := by
  obtain ⟨hS, hS', hall⟩ := hcheck
  have hmem : ∀ {i}, i ∈ d.inputs ∪ d'.inputs →
      i ∈ d.inputList (d.ranges.reachList 64 topTuple) ++
        d'.inputList (d'.ranges.reachList 64 topTuple) ∧ i ≠ .elements [] := by
    rintro i (hi | hi)
    · obtain ⟨hi, hne⟩ := Container.mem_inputList hS hi
      exact ⟨List.mem_append_left _ hi, hne⟩
    · obtain ⟨hi, hne⟩ := Container.mem_inputList hS' hi
      exact ⟨List.mem_append_right _ hi, hne⟩
  exact hall i (hmem hi).1 (hmem hi).2 j (hmem hj).1 (hmem hj).2 heq

end Sample

open Sample

/-- Two elements that are set in two calls, or in one in the other order. -/
theorem fresh_and_hash_inj_twoElements :
    let H := hashing
    let d := container H [.set [elementE] .listed, .set [elementA] .listed]
    let d' := container H [.set [elementA, elementE] .listed]
    (d.ranges.dirty = [] ∧ ∀ c, d.ranges.Live c →
      ∃ p rng, d.ranges.At c p rng ∧ d.ranges.IsFresh H d.sl rng) ∧
    Set.InjOn (fun i => H.blake3 i.bytes) (d.inputs ∪ d'.inputs) ∧ d.hash = d'.hash ∧
    d.elements = d'.elements := by
  intro H d d'
  have hd : Container.Reached H 2 1 (Container.SetOk H) (fun _ _ => True) d :=
    reached_of_check (by decide +kernel)
  have hd' : Container.Reached H 2 1 (Container.SetOk H) (fun _ _ => True) d' :=
    reached_of_check (by decide +kernel)
  have hcheck : Sample.InjCheck H id d d' := by decide +kernel
  have hinj : Set.InjOn (fun i => H.blake3 i.bytes) (d.inputs ∪ d'.inputs) :=
    fun i hi j hj heq => hcheck.eq hi hj heq
  have hhash : d.hash = d'.hash := by decide +kernel
  obtain ⟨hfresh, helements⟩ := hd.fresh_and_hash_inj (by decide) (by decide) hd'
  exact ⟨hfresh, hinj, hhash, helements hinj hhash⟩

/-- Elements are written without separators, so different elements can have the same digest
although different byte sequences do not. -/
theorem hash_eq_movedBoundary :
    let H := hashing
    let d := container H [.set [elementE] .listed]
    let d' := container H [.set [elementEA] .listed]
    Container.Reached H 2 1 (Container.SetOk H) (fun _ _ => True) d ∧
    Container.Reached H 2 1 (Container.SetOk H) (fun _ _ => True) d' ∧
    Set.InjOn H.blake3 (Container.Input.bytes '' (d.inputs ∪ d'.inputs)) ∧ d.hash = d'.hash ∧
    d.elements = [elementE] ∧ d'.elements = [elementEA] := by
  intro H d d'
  have hcheck : Sample.InjCheck H Container.Input.bytes d d' := by decide +kernel
  refine ⟨reached_of_check (by decide +kernel), reached_of_check (by decide +kernel),
    ?_, by decide +kernel, by decide +kernel, by decide +kernel⟩
  rintro _ ⟨i, hi, rfl⟩ _ ⟨j, hj, rfl⟩ heq
  exact hcheck.eq hi hj heq

end Ldiff
