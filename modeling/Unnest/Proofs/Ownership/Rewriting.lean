import Unnest.Proofs.Ownership.Cloning
import Unnest.Proofs.Ownership.Erasing
import Unnest.Proofs.Rewriting.Steps
/-!
# Rewritings keep ownership

Most steps of a rewriting act next to a node that has an owner; the others need to know that what
they place is alive and without an owner and that where they place it is alive. Two facts carry this
through a rewriting: the construct under way is at the top level, so its block, which the body
lists, does not die with it; and the blocks in hand, those taken out of a region and those newly
made, are free and all different.
-/

namespace Unnest

open Func Edit

variable {f f' : Func} {P : Hand} {α : Type}

/-- The construct that is still at its place. -/
def Site.op? : Site → Option OpId
  | .whole op _ | .split op _ | .last op _ => some op
  | _ => none

/-- What ownership needs of what is in hand. -/
structure Hand.Owns (P : Hand) (f : Func) : Prop where
  sound : f.Sound
  top (op : OpId) : P.site.op? = some op → f.AtTop op
  opened (b : BlockId) : P.site = .opened b → f.ownerOfBlock b = some f.body
  regions : ∀ r ∈ P.regions, r ≠ f.body
  free : ∀ b ∈ P.free ++ P.drafts, f.Free b
  once : (P.free ++ P.drafts).Nodup

namespace Hand.Owns

theorem of_sound {runs : List OpId} (h : f.Sound) : Hand.Owns { runs } f :=
  ⟨h, fun _ ho => (by cases ho), fun _ hb => (by cases hb), by simp, by simp, by simp⟩

/-- An edit that places some of the blocks in hand. -/
theorem steady {p : BlockId → Prop} {free : List BlockId} {ends : List OpId} (h : P.Owns f)
    (hs : f'.Sound) (hf : f.Steady f' p fun _ => False) (hsub : free.Sublist P.free)
    (hp : ∀ b ∈ free ++ P.drafts, ¬ p b) : Hand.Owns { P with free, ends } f' where
  sound := hs
  top op hop := hf.atTop op (h.top op hop) not_false
  opened b hb := by
    rw [hf.body]
    exact hf.top b (h.opened b hb)
  regions r hr := by
    rw [hf.body]
    exact h.regions r hr
  free b hb := hf.free b (h.free b ((hsub.append_right _).subset hb)) (hp b hb)
  once := h.once.sublist (hsub.append_right _)

theorem still (h : P.Owns f) (hs : f'.Sound) (hf : f.Still f') : P.Owns f' :=
  h.steady hs hf (.refl _) fun _ _ => not_false

/-- Blocks that were not free come to hand. -/
theorem gain {l : List BlockId} {ends : List OpId} (h : P.Owns f) (hs : f'.Sound)
    (hf : f.Still f') (hl : ∀ b ∈ l, f'.Free b) (hn : l.Nodup) (hnew : ∀ b ∈ l, ¬ f.Free b) :
    Hand.Owns { P with free := l ++ P.free, ends } f' where
  sound := hs
  top := (h.still hs hf).top
  opened := (h.still hs hf).opened
  regions := (h.still hs hf).regions
  free b hb := by
    rw [List.append_assoc, List.mem_append] at hb
    exact hb.elim (hl b) ((h.still hs hf).free b)
  once := by
    rw [List.append_assoc]
    exact hn.append h.once fun b hb hb' => hnew b hb (h.free b hb')

theorem disjoint {l rest : List BlockId} (h : P.Owns f) (hP : P.free = l ++ rest) :
    (∀ b ∈ l, f.Free b) ∧ l.Nodup ∧ ∀ b ∈ rest ++ P.drafts, b ∉ l := by
  have honce := h.once
  rw [hP, List.append_assoc, List.nodup_append'] at honce
  refine ⟨fun b hb => h.free b ?_, honce.1, fun b hb hl => honce.2.2 hl hb⟩
  simp [hP, hb]

end Hand.Owns

/-- An edit that neither takes nor erases anything. -/
theorem Turns.still {x : Edit α}
    (hx : ∀ {f : Func}, f.Sound → Keeps Sound x f fun _ f' => f'.Sound ∧ f.Still f') :
    Turns Hand.Owns Sound P x fun _ => P :=
  fun _ h => (hx h.sound).mono fun _ _ h' => h.still h'.1 h'.2

/-- A block that the body lists is alive. -/
theorem Func.Tied.liveBlock {b : BlockId} (h : f.Sound) (hb : f.ownerOfBlock b = some f.body) :
    f.LiveBlock b := by
  cases hd : f.block? b with
  | none => grind
  | some d =>
    have := h.deadBlock b d hd
    grind

theorem Func.Free.liveBlock {b : BlockId} (h : f.Free b) : f.LiveBlock b := by grind

instance : Upkeep Hand.Owns Sound where
  bears h := h.sound
  enter h hb hop _ _ := by
    refine ⟨h.sound, fun x hx => ?_, fun _ hb => (by cases hb), by simp, by simp, by simp⟩
    cases hx
    exact ⟨_, by simpa using (h.sound.ops _ _).mp hop, (h.sound.blocks _ _).mp hb⟩
  drop h := ⟨h.sound, h.top, h.opened, by simp, by simp, by simp⟩
  marks h _ := ⟨h.sound, h.top, h.opened, h.regions, h.free, h.once⟩
  region h _ hd hr := ⟨h.sound, h.top, h.opened,
    List.forall_mem_cons.mpr ⟨h.sound.region_ne_body hd hr, h.regions⟩, h.free, h.once⟩
  sort h hl := ⟨h.sound, h.top, h.opened, h.regions,
    fun b hb => h.free b ((hl.append_right _).mem_iff.mpr hb),
    (hl.append_right _).nodup_iff.mp h.once⟩
  loosen h hP := by
    have htop := h.top
    rw [hP] at htop
    exact ⟨h.sound, htop, fun _ hb => (by cases hb), h.regions, h.free, h.once⟩
  operands := .still fun h => setOperands_keeps h _ _
  uses := .still fun h => replaceAllUses_keeps h _ _
  arg := .still fun h => addBlockArg_keeps h _ _
  endKind _ := .still fun h => replaceKind_keeps h _ _
  runKind _ _ := fun _ h => (replaceKind_keeps h.sound _ _).mono fun _ _ h' => .of_sound h'.1
  exitKind _ _ := fun _ h => (replaceKind_keeps h.sound _ _).mono fun _ _ h' => .of_sound h'.1
  leaveKind _ _ := fun _ h => (replaceKind_keeps h.sound _ _).mono fun _ _ h' =>
    ⟨h'.1, fun _ ho => (by cases ho), fun _ hb => (by cases hb), by simp, by simp, by simp⟩
  splitKind _ := fun _ h => (replaceKind_keeps h.sound _ _).mono fun _ _ h' => .of_sound h'.1
  before := .still fun h => emitBefore_keeps h _ _ _ _
  after := fun _ h => (emitAfter_keeps h.sound _ _ _ _).mono fun _ _ h' => .of_sound h'.1
  first h _ hb := by
    refine (createOp_keeps h.sound _ _ _ _).mono ?_
    rintro x f₁ ⟨h₁, s₁, l₁, -⟩
    have htop := s₁.top _ ((h.sound.blocks _ _).mp hb)
    refine (insertOpAtStart_keeps h₁ (h₁.liveBlock (s₁.body ▸ htop)) l₁).mono fun _ _ h₂ => ?_
    exact h.still h₂.1 (s₁.trans h₂.2)
  draft := by
    intro P op next _ f h
    refine (newBlock_keeps h.sound _).mono ?_
    rintro b f' ⟨h', s', hfree, hnew⟩
    have hstill := h.still h' s'
    refine ⟨h', hstill.top, hstill.opened, hstill.regions, fun c hc => ?_, ?_⟩
    · obtain rfl | hc := List.mem_cons.mp (List.perm_middle.mem_iff.mp hc)
      · exact hfree
      · exact hstill.free c hc
    · refine List.nodup_middle.mpr (List.nodup_cons.mpr ⟨fun hb => ?_, h.once⟩)
      obtain ⟨d, hd, -⟩ := h.free b hb
      simp [hnew] at hd
  emit _ hb := fun _ h => (emitAtEnd_keeps h.sound (h.free _ (by simp [hb])).liveBlock _ _ _).mono
    fun _ _ h' => h.still h'.1 h'.2
  finish := by
    intro P op next b rest t vs _ hP f h
    refine (emitAtEnd_keeps h.sound (h.free b (by simp [hP])).liveBlock _ _ _).mono ?_
    rintro _ f' ⟨h', s'⟩
    have hstill := h.still h' s'
    have hperm : (P.free ++ P.drafts).Perm (b :: P.free ++ rest) := hP ▸ List.perm_middle
    exact ⟨h', hstill.top, hstill.opened, hstill.regions,
      fun c hc => hstill.free c (hperm.mem_iff.mpr hc), hperm.nodup_iff.mp h.once⟩
  append h := by
    refine (newBlock_keeps h.sound _).mono ?_
    rintro b f₁ ⟨h₁, -, hfree, -⟩
    refine (appendBlock_keeps h₁ hfree fun x d hd hr => (h₁.region_ne_body hd hr rfl).elim).mono ?_
    rintro _ f₂ ⟨h₂, s₂, hb⟩
    refine ⟨h₂, fun _ ho => (by cases ho), fun c hc => ?_, by simp, by simp, by simp⟩
    cases hc
    rw [s₂.body]
    exact hb
  emitOpen := fun _ h => (emitAtEnd_keeps h.sound (h.sound.liveBlock (h.opened _ rfl)) _ _ _).mono
    fun _ _ h' => h.still h'.1 h'.2
  finishOpen := fun _ h => (emitAtEnd_keeps h.sound (h.sound.liveBlock (h.opened _ rfl)) _ _ _).mono
    fun _ _ h' => .of_sound h'.1
  cut := by
    intro P op c hP _ f h
    refine (splitAfter_keeps h.sound op).mono ?_
    rintro next f' ⟨h', s'⟩
    have hstill := h.still h' s'
    have htop := hstill.top
    rw [hP] at htop
    exact ⟨h', htop, fun _ hb => (by cases hb), hstill.regions, by simp, by simp⟩
  cutRest h _ _ _ := (splitAfter_keeps h.sound _).mono fun _ _ h' => .of_sound h'.1
  noRest h _ _ _ := .of_sound h.sound
  take _ hr := by
    intro f h
    refine (takeRegion_keeps h.sound (h.regions _ hr)).mono ?_
    rintro l f' ⟨h', s', hfree, hn, hnew⟩
    exact h.gain h' s' hfree hn hnew
  clone _ _ := by
    intro f h
    refine (cloneRegion_keeps h.sound _).mono ?_
    rintro p f' ⟨h', s', hfree, hn⟩
    refine h.gain h' s' (fun b hb => (hfree b hb).1) hn fun b hb hold => ?_
    obtain ⟨d, hd, -⟩ := hold
    simp [(hfree b hb).2] at hd
  splice _ hP := by
    intro f h
    obtain ⟨hl, hn, hout⟩ := h.disjoint hP
    exact (spliceBefore_keeps h.sound hl hn).mono fun _ _ h' =>
      h.steady h'.1 h'.2 (hP ▸ List.sublist_append_right _ _) hout
  discard _ hP := by
    intro f h
    obtain ⟨hl, hn, hout⟩ := h.disjoint hP
    refine (discardBlocks_keeps h.sound fun b hb => ?_).mono fun _ _ h' =>
      h.steady h'.1 h'.2 (hP ▸ List.sublist_append_right _ _) hout
    have := hl b hb
    grind
  erase _ _ := fun _ h => (eraseOp_keeps h.sound _).mono fun _ _ h' => .of_sound h'.1
  close := by
    intro P f op next b t vs h hP hb
    have htop : f.ownerOfBlock b = some f.body := by
      have := h.top op (by rw [hP]; rfl)
      grind
    refine (eraseOp_keeps h.sound op).mono ?_
    rintro _ f₁ ⟨h₁, s₁⟩
    have hlive := h₁.liveBlock (b := b) (by rw [s₁.body]; exact s₁.top b htop)
    exact (emitAtEnd_keeps h₁ hlive _ _ _).mono fun _ _ h₂ => .of_sound h₂.1

end Unnest
