import Aim.Proofs.UvmLife

/-!
# Address spaces over whole runs

Any finite sequence of `mm_new`, `create_uvm`, `destroy_uvm`, `mm_clone` and
`mm_destroy` calls, each of which may succeed or fail. `step_ends` says of one
call what it keeps, whatever is known of the environment; the results about
runs are read off it.

`uvm_run_ok` is the invariant that the source documents at `struct vma`. It
rests on the object and frame allocators alone. The search of `create_uvm` adds
the length of the range to its start in 32 bits, so the end of a range that
reaches up to `2 ^ 32` is zero there, and the first area of the list is taken
to be behind it; `BelowTop` keeps such ranges out of address spaces that have
areas.
-/

namespace Aim.Kern

open Aim.Lib Function

variable {σ : Type} {vmas : Nat → List Nat} {paged total : Prop} {E : Env σ} {R : Res}

/-- The address spaces that there are. -/
structure UvmRun (σ : Type) where
  u : Uvm σ
  mms : List Nat

inductive UvmCall where
  | new
  | create (mm addr len flags : Nat)
  | destroy (mm addr len : Nat)
  | clone (dst src : Nat)
  | drop (mm : Nat)
  deriving DecidableEq, Repr

namespace UvmRun

def call {α : Type} (x : EStateM Stop (Uvm σ) α) : EStateM Stop (UvmRun σ) α :=
  zoom UvmRun.u (fun u r => { r with u := u }) x

def step (E : Env σ) : UvmCall → EStateM Stop (UvmRun σ) Unit
  | .new => do
      let mm ← call (mmNew E)
      if mm ≠ 0 then
        modify fun r => { r with mms := mm :: r.mms }
  | .create mm addr len flags => do
      let _ ← call (createUvm E mm addr len flags)
  | .destroy mm addr len => do
      let _ ← call (destroyUvm E mm addr len)
  | .clone dst src => do
      let _ ← call (mmClone E dst src)
  | .drop mm => do
      call (mmDestroy E mm)
      modify fun r => if mm = r.u.kernelMm then r else { r with mms := r.mms.erase mm }

/-- The list of `mm` is empty. -/
def Empty (r : UvmRun σ) (mm : Nat) : Prop := r.u.links.next (.sentry mm) = .sentry mm

instance (r : UvmRun σ) (mm : Nat) : Decidable (r.Empty mm) :=
  inferInstanceAs (Decidable (_ = _))

/-- The calls that clients can make: on address spaces that there are, with
arguments of 32 bits, and `mm_clone` into an address space without areas. -/
def Legal (r : UvmRun σ) : UvmCall → Prop
  | .new => True
  | .create mm addr len flags => mm ∈ r.mms ∧ addr < 2 ^ 32 ∧ len < 2 ^ 32 ∧ flags < 2 ^ 32
  | .destroy mm addr len => mm ∈ r.mms ∧ addr < 2 ^ 32 ∧ len < 2 ^ 32
  | .clone dst src => dst ∈ r.mms ∧ src ∈ r.mms ∧ r.Empty dst
  | .drop mm => mm ∈ r.mms

instance (r : UvmRun σ) : ∀ i, Decidable (r.Legal i)
  | .new => inferInstanceAs (Decidable True)
  | .create _ _ _ _ => inferInstanceAs (Decidable (_ ∧ _ ∧ _ ∧ _))
  | .destroy _ _ _ => inferInstanceAs (Decidable (_ ∧ _ ∧ _))
  | .clone _ _ => inferInstanceAs (Decidable (_ ∧ _ ∧ _))
  | .drop _ => inferInstanceAs (Decidable (_ ∈ _))

/-- Page-aligned ranges that do not wrap. -/
def InRange (_ : UvmRun σ) : UvmCall → Prop
  | .create _ addr len _ => addr % pgSize = 0 ∧ addr + len ≤ 2 ^ 32
  | .destroy _ addr len => addr % pgSize = 0 ∧ addr + len ≤ 2 ^ 32
  | _ => True

instance (r : UvmRun σ) : ∀ i, Decidable (r.InRange i)
  | .new => inferInstanceAs (Decidable True)
  | .create _ _ _ _ => inferInstanceAs (Decidable (_ ∧ _))
  | .destroy _ _ _ => inferInstanceAs (Decidable (_ ∧ _))
  | .clone _ _ => inferInstanceAs (Decidable True)
  | .drop _ => inferInstanceAs (Decidable True)

/-- Ranges that do not wrap, aligned or not. -/
def NoWrap (_ : UvmRun σ) : UvmCall → Prop
  | .create _ addr len _ => addr + len ≤ 2 ^ 32
  | .destroy _ addr len => addr + len ≤ 2 ^ 32
  | _ => True

instance (r : UvmRun σ) : ∀ i, Decidable (r.NoWrap i)
  | .new => inferInstanceAs (Decidable True)
  | .create _ _ _ _ => inferInstanceAs (Decidable (_ ≤ _))
  | .destroy _ _ _ => inferInstanceAs (Decidable (_ ≤ _))
  | .clone _ _ => inferInstanceAs (Decidable True)
  | .drop _ => inferInstanceAs (Decidable True)

theorem InRange.noWrap {r : UvmRun σ} : ∀ {i : UvmCall}, r.InRange i → r.NoWrap i
  | .new, _ => trivial
  | .create _ _ _ _, h => h.2
  | .destroy _ _ _, h => h.2
  | .clone _ _, _ => trivial
  | .drop _, _ => trivial

/-- A range that reaches up to `2 ^ 32` is only asked for as the first one. -/
def BelowTop (r : UvmRun σ) : UvmCall → Prop
  | .create mm addr len _ => len = 0 ∨ addr + len < 2 ^ 32 ∨ r.Empty mm
  | _ => True

instance (r : UvmRun σ) : ∀ i, Decidable (r.BelowTop i)
  | .new => inferInstanceAs (Decidable True)
  | .create _ _ _ _ => inferInstanceAs (Decidable (_ ∨ _ ∨ _))
  | .destroy _ _ _ => inferInstanceAs (Decidable True)
  | .clone _ _ => inferInstanceAs (Decidable True)
  | .drop _ => inferInstanceAs (Decidable True)

end UvmRun

/-- The address spaces over an environment, without any in the states `Start`. -/
def uvmCalls (E : Env σ) (Start : Uvm σ → Prop) : Machine Stop (UvmRun σ) UvmCall where
  init r := r.mms = [] ∧ Start r.u
  legal := UvmRun.Legal
  step := UvmRun.step E

instance (E : Env σ) (Start : Uvm σ → Prop) (r : UvmRun σ) (i : UvmCall) :
    Decidable ((uvmCalls E Start).legal r i) := inferInstanceAs (Decidable (r.Legal i))

/-! ## One call -/

section Step

variable {E : Env σ} {paged total : Prop} {S : EnvSpec E paged total} {H : Others}
  {r : UvmRun σ} {vmas : Nat → List Nat} {R : Res} {mms : List Nat} {m : Nat} {u : Uvm σ}
  {i : UvmCall}

theorem Spaces.empty_iff (h : Spaces u mms vmas) (hm : m ∈ mms) :
    u.links.next (.sentry m) = .sentry m ↔ vmas m = [] := by
  rw [h.next_sentry hm]
  cases vmas m with
  | nil => exact ⟨fun _ => rfl, fun _ => rfl⟩
  | cons v l => exact ⟨fun hn => VmaNode.noConfusion hn, fun hn => absurd hn (List.cons_ne_nil v l)⟩

theorem ends_call_bind {α β : Type} {x : EStateM Stop (Uvm σ) α}
    {f : α → EStateM Stop (UvmRun σ) β} {Q : α → Uvm σ → Prop} {Q' : β → UvmRun σ → Prop}
    (h : Ends total x r.u Q) (hf : ∀ a u, Q a u → Ends total (f a) { r with u := u } Q') :
    Ends total (UvmRun.call x >>= f) r Q' := by
  have hx : Ends total (UvmRun.call x) r fun a r' => ∃ u, Q a u ∧ r' = { r with u := u } :=
    ends_zoom h fun a u hQ => ⟨u, hQ, rfl⟩
  refine hx.bind ?_
  intro a r' hQ
  obtain ⟨u, hQ, rfl⟩ := hQ
  exact hf a u hQ

/-- What a call has to meet so that it returns: `create_uvm` finds the pages
free, and `destroy_uvm` is clear of the sentry. -/
def UvmRun.Fits (r : UvmRun σ) (vmas : Nat → List Nat) : UvmCall → Prop
  | .create mm addr len flags => len % pgSize = 0 → addr % pgSize = 0 → len ≠ 0 →
      Sorted r.u r.mms vmas ∧ flags < pgSize ∧ addr + len ≤ 2 ^ 32 ∧
        (addr + len < 2 ^ 32 ∨ vmas mm = [])
  | .destroy mm addr len => (r.u.before mm).1 = 0 ∧ addr + len ≤ 2 ^ 32
  | _ => True

/-- What every call keeps. -/
structure UvmRun.Kept (S : EnvSpec E paged total) (H : Others) (r : UvmRun σ)
    (vmas : Nat → List Nat) (R : Res) : Prop where
  inv : UvmInv S H r.u r.mms vmas R
  zero : 0 ∉ r.mms

theorem Sorted.newMm (h : Sorted u mms vmas) (hm : m ∉ mms) :
    Sorted u (m :: mms) (update vmas m []) := by
  intro m' hm'
  rcases List.mem_cons.mp hm' with rfl | hm'
  · rw [update_self]
    exact List.Pairwise.nil
  · have hne : m' ≠ m := fun he => hm (he ▸ hm')
    rw [update_of_ne hne]
    exact h m' hm'

theorem Sorted.dropMm {u u' : Uvm σ} (h : Sorted u mms vmas)
    (hd : SameData (mms.erase m) vmas u u') : Sorted u' (mms.erase m) vmas := by
  intro m' hm'
  rw [hd.starts fun _ hv => .of_mem hm' hv]
  exact h m' (List.mem_of_mem_erase hm')

/-- The address space whose areas a call changes. -/
def UvmCall.target : UvmCall → Option Nat
  | .create mm _ _ _ => some mm
  | .destroy mm _ _ => some mm
  | .clone dst _ => some dst
  | _ => none

/-- One call on the areas of an address space, successful or not. -/
theorem call_ends (h : UvmInv S H r.u r.mms vmas R) (htp : total → paged) {mm : Nat}
    (hi : i.target = some mm) (hl : r.Legal i) (hnd : ∀ m ∈ r.mms, (r.u.starts (vmas m)).Nodup)
    (hfit : total → r.Fits vmas i) :
    Ends total (UvmRun.step E i) r fun _ r' => mm ∈ r.mms ∧ ∃ c u' l R', r' = { r with u := u' } ∧
      CallOn S H r.mms vmas mm r.u R c u' l R' ∧
        (Sorted r.u r.mms vmas → r.NoWrap i → r.BelowTop i →
          Sorted u' r.mms (update vmas mm l)) := by
  cases i with
  | new => cases hi
  | create m addr len flags =>
      obtain rfl : m = mm := Option.some.inj hi
      obtain ⟨hm, haddr, hlen, hflags⟩ := hl
      refine ends_call_bind (createUvm_ends h htp hm haddr hlen hflags hfit) ?_
      intro c u hc
      obtain ⟨l, R', hc, hsorted⟩ := hc
      refine ends_pure ⟨hm, c, u, l, R', rfl, hc, fun hs hin htop => hsorted hs hin ?_⟩
      exact htop.imp_right (Or.imp_right (h.spaces.empty_iff hm).mp)
  | destroy m addr len =>
      obtain rfl : m = mm := Option.some.inj hi
      obtain ⟨hm, -, hlen⟩ := hl
      refine ends_call_bind (destroyUvm_ends h htp hm hlen hfit) ?_
      intro c u hc
      obtain ⟨l, R', hc, hsorted⟩ := hc
      exact ends_pure ⟨hm, c, u, l, R', rfl, hc, fun hs _ _ => hsorted hs⟩
  | clone dst src =>
      obtain rfl : dst = mm := Option.some.inj hi
      obtain ⟨hdst, hsrc, hempty⟩ := hl
      refine ends_call_bind (mmClone_ends h htp hdst hsrc ((h.spaces.empty_iff hdst).mp hempty)
        (h.spaces.length_le hsrc (hnd src hsrc))) ?_
      intro c u hc
      obtain ⟨l, R', hc, hsorted⟩ := hc
      exact ends_pure ⟨hdst, c, u, l, R', rfl, hc, fun hs _ _ => hsorted hs⟩
  | drop m => cases hi

/-- One call, successful or not. -/
theorem step_ends (h : r.Kept S H vmas R) (htp : total → paged) (hl : r.Legal i)
    (hnd : ∀ m ∈ r.mms, (r.u.starts (vmas m)).Nodup) (hfit : total → r.Fits vmas i) :
    Ends total (UvmRun.step E i) r fun _ r' => r'.u.before = r.u.before ∧
      ∃ vmas' R', r'.Kept S H vmas' R' ∧
        (Sorted r.u r.mms vmas → r.NoWrap i → r.BelowTop i →
          Sorted r'.u r'.mms vmas') := by
  have hinv := h.inv
  cases ht : i.target with
  | some mm =>
      refine (call_ends hinv htp ht hl hnd hfit).imp ?_
      intro _ r' hr'
      obtain ⟨-, c, u, l, R', rfl, hc, hsorted⟩ := hr'
      exact ⟨hc.others.before, _, R', ⟨hc.inv, h.zero⟩, hsorted⟩
  | none =>
    cases i with
    | new =>
        refine ends_call_bind (mmNew_ends hinv) ?_
        intro mm u hmm
        obtain ⟨hd, ⟨h0, h'⟩ | ⟨h0, hR, R', -, -, h'⟩⟩ := hmm
        · rw [if_neg (not_not.mpr h0)]
          exact ends_pure ⟨hd.before, vmas, R, ⟨h', h.zero⟩, fun hs _ _ => hs.keep hd⟩
        · rw [if_pos h0]
          have hmem : mm ∉ r.mms := fun hmem => hR (hinv.owned.objsOut.mm mm hmem)
          refine ends_modify ⟨hd.before, _, R', ⟨h', ?_⟩, fun hs _ _ => (hs.keep hd).newMm hmem⟩
          intro hzero
          rcases List.mem_cons.mp hzero with hzero | hzero
          · exact h0 hzero.symm
          · exact h.zero hzero
    | create mm addr len flags => cases ht
    | destroy mm addr len => cases ht
    | clone dst src => cases ht
    | drop mm =>
        have hm : mm ∈ r.mms := hl
        have hm0 : mm ≠ 0 := fun he => h.zero (he ▸ hm)
        by_cases hk : mm = r.u.kernelMm
        · -- The kernel's own address space is left alone.
          have hnone : Ends total (mmDestroy E mm) r.u fun _ u => u = r.u := by
            rw [mmDestroy]
            refine ends_get_bind ?_
            rw [if_pos (.inr hk)]
            exact ends_pure rfl
          refine ends_call_bind hnone ?_
          intro _ u hu
          refine ends_modify ?_
          rw [hu, if_pos hk]
          exact ⟨rfl, vmas, R, h, fun hs _ _ => hs⟩
        · refine ends_call_bind (mmDestroy_ends hinv htp hm hm0 hk) ?_
          intro _ u hu
          obtain ⟨hd, R', -, -, h'⟩ := hu
          refine ends_modify ?_
          rw [if_neg (show ¬ mm = u.kernelMm by rw [hd.kernelMm]; exact hk)]
          exact ⟨hd.before, vmas, R', ⟨h', fun h0 => h.zero (List.mem_of_mem_erase h0)⟩,
            fun hs _ _ => hs.dropMm hd⟩

end Step

/-! ## The invariant of `struct vma` -/

/-- What the source documents at `struct vma`. -/
structure UvmOk (r : UvmRun σ) (vmas : Nat → List Nat) : Prop where
  /-- The list of every address space is a ring through its sentry. -/
  linked : ∀ m ∈ r.mms, Links.Ring r.u.links (.sentry m) (nodes (vmas m))
  /-- The areas ascend strictly and do not overlap. -/
  ascending : ∀ m ∈ r.mms, (vmas m).Pairwise fun v w =>
    (r.u.vma v).start < (r.u.vma w).start ∧
      (r.u.vma v).start + (r.u.vma v).size ≤ (r.u.vma w).start
  one_page : ∀ m ∈ r.mms, ∀ v ∈ vmas m, (r.u.vma v).size = pgSize
  belongs : ∀ m ∈ r.mms, ∀ v ∈ vmas m, (r.u.vma v).mm = m
  /-- No two areas, of one address space or of two, are on the same pages. -/
  unshared : ∀ m ∈ r.mms, ∀ v ∈ vmas m, ∀ m' ∈ r.mms, ∀ w ∈ vmas m', v ≠ w →
    (r.u.vma v).pages ≠ (r.u.vma w).pages ∧
      (r.u.upages (r.u.vma v).pages).pages.paddr ≠ (r.u.upages (r.u.vma w).pages).pages.paddr

variable {r : UvmRun σ}

theorem UvmInv.ok {S : EnvSpec E paged total} {H : Others} (h : UvmInv S H r.u r.mms vmas R)
    (hs : Sorted r.u r.mms vmas) : UvmOk r vmas where
  linked := h.spaces.ring
  ascending m hm := by
    have hpairs : (vmas m).Pairwise fun v w =>
        (r.u.vma v).start + pgSize ≤ (r.u.vma w).start := List.pairwise_map.mp (hs m hm)
    refine hpairs.imp_of_mem ?_
    intro v w hv _ hvw
    have hpos : 0 < pgSize := by decide
    rw [(h.spaces.area m hm v hv).size]
    exact ⟨by omega, hvw⟩
  one_page m hm v hv := (h.spaces.area m hm v hv).size
  belongs m hm v hv := (h.spaces.area m hm v hv).mm
  unshared m hm v hv m' hm' w hw hne := by
    have hlv : Live r.mms vmas v := .of_mem hm hv
    have hlw : Live r.mms vmas w := .of_mem hm' hw
    exact ⟨fun hp => hne (h.owned.pagesInj v w hlv hlw hp),
      fun ha => hne (h.owned.frameInj v w hlv hlw ha)⟩

/-- Without address spaces, everything that is out is somebody else's. -/
theorem UvmInv.initial {S : EnvSpec E paged total} {u : Uvm σ} (hrep : S.Rep u.env R)
    (hlive : ∀ x, u.live x = true ↔ x ∈ R.objs) :
    UvmInv S ⟨R.objs, R.frames, R.indexes⟩ u [] (fun _ => []) R := by
  have hnone : ∀ v, ¬ Live [] (fun _ => []) v := by
    intro v hv
    obtain ⟨m, hm, -⟩ := hv
    cases hm
  have hobj : ∀ x, ¬ ObjOf u [] (fun _ => []) x := by
    intro x hx
    rcases hx with hx | ⟨v, hv, -⟩
    · cases hx
    · exact hnone v hv
  refine ⟨hrep, hlive, List.nodup_nil, ⟨?_, ?_, ?_⟩, ?_, ?_, ?_⟩
  · exact fun _ hm => (List.not_mem_nil hm).elim
  · exact fun v hv => (hnone v hv).elim
  · exact fun _ hm => (List.not_mem_nil hm).elim
  · constructor
    · exact fun v _ hv => (hnone v hv).elim
    · exact fun v _ hv => (hnone v hv).elim
    · exact fun v _ hv => (hnone v hv).elim
    · exact fun _ hm => (List.not_mem_nil hm).elim
    · exact fun x => (or_iff_left (hobj x)).symm
    · exact fun x _ => hobj x
    · exact fun a => (or_iff_left fun ⟨v, hv, _⟩ => hnone v hv).symm
    · exact fun v hv => (hnone v hv).elim
  · intro _
    constructor
    · exact fun _ hm => (List.not_mem_nil hm).elim
    · exact fun g => (or_iff_left fun ⟨_, hm, _⟩ => List.not_mem_nil hm).symm
    · exact fun _ hm => (List.not_mem_nil hm).elim
    · exact fun _ hm => (List.not_mem_nil hm).elim
    · exact fun _ hm => (List.not_mem_nil hm).elim
  · exact fun _ v hv => (hnone v hv).elim

/-- The environment accounts for its objects and frames, and the words in front
of every `struct mm` are zero. -/
def AllocSpec.Start {E : Env σ} (A : AllocSpec E) (u : Uvm σ) : Prop :=
  (∀ m, u.before m = (0, 0)) ∧ ∃ O F, A.Out u.env O F ∧ ∀ x, u.live x = true ↔ x ∈ O

/-- In every run whose ranges stay below the top of the address space, or are
the first ones of theirs, the address spaces are in order. -/
theorem uvm_run_ok {E : Env σ} (A : AllocSpec E) {r : UvmRun σ}
    (h : ((uvmCalls E A.Start).restrict fun r i => r.InRange i ∧ r.BelowTop i).Reachable r) :
    ∃ vmas, UvmOk r vmas := by
  have hkept : ∃ H vmas R, r.Kept A.toEnvSpec H vmas R ∧ Sorted r.u r.mms vmas := by
    refine Machine.reachable_of_kept (I := fun r => ∃ H vmas R,
      r.Kept A.toEnvSpec H vmas R ∧ Sorted r.u r.mms vmas) ?_ ?_ h
    · intro r hr
      obtain ⟨hmms, -, O, F, hout, hlive⟩ := hr
      have hinv := UvmInv.initial (S := A.toEnvSpec) (u := r.u)
        (R := ⟨O, F, ∅, fun _ => ∅, fun _ _ => none⟩) hout hlive
      rw [← hmms] at hinv
      refine ⟨_, _, _, ⟨hinv, ?_⟩, fun m hm => ?_⟩
      · rw [hmms]
        exact List.not_mem_nil
      · rw [hmms] at hm
        cases hm
    · intro r i r' hr hl hrun
      obtain ⟨H, vmas, R, hk, hs⟩ := hr
      obtain ⟨hl, hin, htop⟩ := hl
      have hends := step_ends hk (fun hf => hf.elim) hl (fun m hm => hs.nodup hm)
        (fun hf => hf.elim)
      obtain ⟨-, vmas', R', hk', hs'⟩ := hends.of_run hrun
      exact ⟨H, vmas', R', hk', hs' hs hin.noWrap htop⟩
  obtain ⟨H, vmas, R, hk, hs⟩ := hkept
  exact ⟨vmas, hk.inv.ok hs⟩

/-! ## A range that reaches the top -/

/-- An environment that hands out one object and one frame after the other. -/
def bumpEnv : Env (Nat × Nat) where
  kmalloc n := modifyGet fun s => (s.1, s.1 + n + 1, s.2)
  kfree _ := pure ()
  allocPages pages := modifyGet fun s => ((0, { pages with paddr := s.2 }), s.1, s.2 + pgSize)
  freePages pages := pure pages
  initPgindex := pure 1
  mapPages _ _ _ _ _ := pure 0
  unmapPages _ _ size := pure (size, 0)
  destroyPgindex _ := pure ()
  memmove _ _ _ := pure ()

def bumpSpec : AllocSpec bumpEnv where
  Out s O F := 0 < s.1 ∧ (∀ x ∈ O, x < s.1) ∧ ∀ a ∈ F, a < s.2
  kmalloc s O F n h := by
    obtain ⟨h0, hO, hF⟩ := h
    refine ends_of_ok rfl (.inr ⟨h0.ne', fun hmem => lt_irrefl _ (hO _ hmem), ?_, ?_, hF⟩)
    · exact Nat.succ_pos _
    · intro x hx
      rcases hx with rfl | hx
      · exact Nat.lt_succ_of_le (Nat.le_add_right _ _)
      · exact Nat.lt_succ_of_le ((hO x hx).le.trans (Nat.le_add_right _ _))
  kfree s O F p h _ := ends_pure ⟨h.1, fun x hx => h.2.1 x hx.1, h.2.2⟩
  allocPages s O F h := by
    obtain ⟨h0, hO, hF⟩ := h
    refine ends_of_ok rfl (.inr ⟨le_refl _, rfl, rfl, fun hmem => lt_irrefl _ (hF _ hmem),
      h0, hO, ?_⟩)
    have hpos : 0 < pgSize := by decide
    intro a ha
    rcases ha with rfl | ha
    · exact Nat.lt_add_of_pos_right hpos
    · exact (hF a ha).trans (Nat.lt_add_of_pos_right hpos)
  freePages s O F a h _ := ends_pure ⟨h.1, h.2.1, fun x hx => h.2.2 x hx.1⟩
  initPgindex _ _ _ h := ends_pure h
  mapPages _ _ _ _ _ _ _ h _ := ends_pure h
  unmapPages _ _ _ _ _ h := ends_pure h
  destroyPgindex _ _ _ _ h := ends_pure h
  memmove _ _ _ _ _ h _ _ := ends_pure h

/-- Nothing is out yet. -/
def bumpStart : UvmRun (Nat × Nat) where
  u := { env := (0x1000, 0x100000), live := fun _ => false, links := ⟨id, id⟩
         share := ⟨id, id⟩, pgindex := fun _ => 0, vma := fun _ => ⟨0, 0, 0, 0, 0⟩
         upages := fun _ => ⟨⟨0, 0, 0⟩, 0⟩, before := fun _ => (0, 0), kernelMm := 0 }
  mms := []

theorem bumpStart_init : (uvmCalls bumpEnv bumpSpec.Start).init bumpStart := by
  refine ⟨rfl, fun _ => rfl, ∅, ∅, ⟨by decide, ?_, ?_⟩, ?_⟩
  · exact fun _ hx => hx.elim
  · exact fun _ hx => hx.elim
  · exact fun x => ⟨fun h => (Bool.false_ne_true h).elim, fun h => h.elim⟩

/-- The areas of a list in order are met in order along its links. -/
theorem UvmOk.start_lt (h : UvmOk r vmas) {m v w : Nat} (hm : m ∈ r.mms)
    (hv : r.u.links.next (.sentry m) = .vma v) (hw : r.u.links.next (.vma v) = .vma w) :
    (r.u.vma v).start < (r.u.vma w).start := by
  have hring := h.linked m hm
  have hasc := h.ascending m hm
  have hfirst : Links.Ring r.u.links (.sentry m) ([] ++ nodes (vmas m)) := hring
  have hnext : r.u.links.next (.sentry m) = (nodes (vmas m)).headD (.sentry m) :=
    hfirst.next_last
  rw [hv] at hnext
  cases hl : vmas m with
  | nil =>
      rw [hl] at hnext
      cases hnext
  | cons v' l =>
      rw [hl] at hnext hfirst hasc
      cases hnext
      have hsecond : r.u.links.next (.vma v) = (nodes l).headD (.sentry m) := hfirst.next_mem
      rw [hw] at hsecond
      cases l with
      | nil => cases hsecond
      | cons w' l =>
          cases hsecond
          exact ((List.pairwise_cons.mp hasc).1 w List.mem_cons_self).1

/-- A page, and then the topmost page. -/
def topCalls : List UvmCall :=
  [.new, .create 0x1000 0x1000 0x1000 0, .create 0x1000 0xfffff000 0x1000 0]

/-- What can be seen of the list of the address space at `0x1000`. -/
def firstTwo (r : UvmRun σ) : List Nat × VmaNode × VmaNode × Nat × Nat :=
  let v := r.u.links.next (.sentry 0x1000)
  let w := r.u.links.next v
  (r.mms, v, w, r.u.startOf v, r.u.startOf w)

/-- The topmost page goes to the head of the list. -/
theorem uvm_top_misplaced : ∃ r,
    ((uvmCalls bumpEnv bumpSpec.Start).restrict UvmRun.InRange).Reachable r ∧
      ¬ ∃ vmas, UvmOk r vmas := by
  have hinit : ((uvmCalls bumpEnv bumpSpec.Start).restrict UvmRun.InRange).Reachable bumpStart :=
    .init bumpStart_init
  obtain ⟨r, hreach, hseen⟩ := hinit.sees topCalls firstTwo
    ([0x1000], .vma 4203, .vma 4121, 0xfffff000, 0x1000) (by decide +kernel) (by decide +kernel)
  obtain ⟨hmms, hseen⟩ := Prod.mk.inj hseen
  obtain ⟨hv, hseen⟩ := Prod.mk.inj hseen
  obtain ⟨hw, hseen⟩ := Prod.mk.inj hseen
  obtain ⟨hsv, hsw⟩ := Prod.mk.inj hseen
  refine ⟨r, hreach, fun hok => ?_⟩
  obtain ⟨vmas, hok⟩ := hok
  rw [hv] at hw hsv hsw
  rw [hw] at hsw
  have hlt := hok.start_lt (by simp [hmms]) hv hw
  have hsv' : (r.u.vma 4203).start = 0xfffff000 := hsv
  have hsw' : (r.u.vma 4121).start = 0x1000 := hsw
  omega

/-- Two pages, the lower one freed again, and a copy of the rest. -/
def sampleCalls : List UvmCall :=
  [.new, .create 0x1000 0x4000 0x2000 7, .destroy 0x1000 0x4000 0x1000, .new,
    .clone 4285 0x1000]

theorem uvm_run_ok_sample : ∃ r,
    ((uvmCalls bumpEnv bumpSpec.Start).restrict
      fun r i => r.InRange i ∧ r.BelowTop i).Reachable r ∧
      r.mms = [4285, 0x1000] ∧ r.u.links.next (.sentry 4285) = .vma 4310 ∧
      ∃ vmas, UvmOk r vmas := by
  have hinit : ((uvmCalls bumpEnv bumpSpec.Start).restrict
      fun r i => r.InRange i ∧ r.BelowTop i).Reachable bumpStart := .init bumpStart_init
  obtain ⟨r, hreach, hseen⟩ := hinit.sees sampleCalls
    (fun r => (r.mms, r.u.links.next (.sentry 4285))) ([4285, 0x1000], .vma 4310)
    (by decide +kernel) (by decide +kernel)
  obtain ⟨hmms, hfirst⟩ := Prod.mk.inj hseen
  exact ⟨r, hreach, hmms, hfirst, uvm_run_ok bumpSpec hreach⟩

end Aim.Kern
