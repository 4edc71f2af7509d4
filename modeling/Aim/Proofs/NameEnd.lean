import Aim.Kern.NameArray
import Mathlib.Data.List.Infix

/-!
# Where the name of a device ends

`strlcpy` copies the source with its NUL as far as there is room for it
(`strlcpyTo_eq`). If there is no room for the NUL, the array has none: `strcmp` with
the same characters reads on behind it, and a name that is one shorter does not match
(`device_name_iff`).
-/

namespace Aim.Kern

open Aim.Lib Function

/-- The longest string of at most `k` characters a string starts with. -/
def CString.take (s : CString) (k : Nat) : CString := .ofBytes (s.bytes.take k)

theorem CString.bytes_take (s : CString) (k : Nat) : (s.take k).bytes = s.bytes.take k :=
  List.takeWhile_eq_self_iff.mpr fun b hb => by
    simpa using s.nonzero b (List.mem_of_mem_take hb)

/-- The first `k` bytes of an array have a string, with its NUL. -/
def HoldsString (array : List UInt8) (k : Nat) (s : CString) : Prop :=
  s.bytes ++ [0] <+: array.take k

/-! ## `strlcpy` -/

theorem strlcpyLoop_eq (src : List UInt8) (n i : Nat) (dst : List UInt8) (h : n ≤ dst.length) :
    strlcpyLoop src n i dst =
      .ok ((src ++ [0]).take n ++ dst.drop (min n (src.length + 1)), i + min n src.length) := by
  induction n generalizing src i dst with
  | zero => simp [strlcpyLoop]
  | succ n ih =>
      obtain ⟨d, dst, rfl⟩ := List.exists_cons_of_length_pos (show 0 < dst.length by omega)
      cases src with
      | nil => simp [strlcpyLoop]
      | cons c src =>
          rw [List.length_cons] at h ⊢
          rw [strlcpyLoop, ih src (i + 1) dst (by omega), Nat.succ_min_succ, Nat.succ_min_succ,
            Nat.add_right_comm i, Nat.add_assoc i]
          rfl

section Copy

variable {src : CString} {dst : List UInt8} {dsize : Nat}

/-- The array after `strlcpy`. -/
def copied (dst : List UInt8) (src : CString) (dsize : Nat) : List UInt8 :=
  (src.bytes ++ [0]).take dsize ++ dst.drop (min dsize (src.bytes.length + 1))

theorem strlcpyTo_eq (src : CString) (h : dsize ≤ dst.length) : strlcpyTo dst src dsize =
    .ok (copied dst src dsize, min dsize src.bytes.length) := by
  rw [strlcpyTo, strlcpyLoop_eq _ _ _ _ h, Nat.zero_add]
  rfl

theorem length_copied (h : dsize ≤ dst.length) : (copied dst src dsize).length = dst.length := by
  rw [copied, List.length_append, List.length_take, List.length_append, List.length_drop,
    List.length_singleton]
  omega

/-- Nothing is written behind the first `dsize` bytes. -/
theorem getElem?_copied {i : Nat} (hi : dsize ≤ i) : (copied dst src dsize)[i]? = dst[i]? := by
  have hlen : ((src.bytes ++ [0]).take dsize).length = min dsize (src.bytes.length + 1) := by
    rw [List.length_take, List.length_append, List.length_singleton]
  rw [copied, List.getElem?_append_right (by omega), hlen, List.getElem?_drop,
    Nat.add_sub_cancel' (by omega)]

/-- With room for the NUL. -/
theorem copied_of_lt (h : src.bytes.length < dsize) :
    copied dst src dsize = src.bytes ++ [0] ++ dst.drop (src.bytes.length + 1) := by
  have hlen : (src.bytes ++ [0]).length ≤ dsize := by
    rw [List.length_append, List.length_singleton]
    omega
  rw [copied, List.take_of_length_le hlen, Nat.min_eq_right (by omega)]

theorem zero_mem_copied (h : src.bytes.length < dsize) : 0 ∈ copied dst src dsize := by
  rw [copied_of_lt h]
  simp

theorem ofBytes_copied (h : src.bytes.length < dsize) :
    CString.ofBytes (copied dst src dsize) = strlcpy src dsize := by
  have hall : ∀ b ∈ src.bytes, decide (b ≠ 0) = true := by
    simpa using src.nonzero
  rw [strlcpy_of_lt h, CString.mk.injEq, copied_of_lt h, List.append_assoc]
  show (src.bytes ++ _).takeWhile (· ≠ 0) = src.bytes
  rw [List.takeWhile_append_of_pos hall]
  exact List.append_nil _

/-- Without. -/
theorem copied_of_le (h : dsize ≤ src.bytes.length) :
    copied dst src dsize = src.bytes.take dsize ++ dst.drop dsize := by
  rw [copied, List.take_append_of_le_length h, Nat.min_eq_left (by omega)]

theorem holdsString_copied_iff (hpos : 0 < dsize) (h : dsize ≤ dst.length) :
    HoldsString (copied dst src dsize) dsize (src.take (dsize - 1)) ↔ src.bytes.length < dsize := by
  rw [HoldsString, CString.bytes_take]
  constructor
  · intro hheld
    by_contra hle
    have hlen : (src.bytes.take dsize).length = dsize := by
      rw [List.length_take]
      omega
    rw [copied_of_le (by omega), List.take_append_of_le_length (by omega),
      List.take_take, Nat.min_self] at hheld
    have hmem : (0 : UInt8) ∈ src.bytes.take dsize :=
      hheld.subset (List.mem_append_right _ List.mem_cons_self)
    exact src.nonzero 0 (List.mem_of_mem_take hmem) rfl
  · intro hlt
    have hroom : (src.bytes ++ [0]).length ≤ ((copied dst src dsize).take dsize).length := by
      rw [List.length_take, length_copied h, List.length_append, List.length_singleton]
      omega
    rw [List.take_of_length_le (by omega)]
    refine List.prefix_of_prefix_length_le ?_ (List.take_prefix dsize _) hroom
    rw [copied_of_lt hlt]
    exact List.prefix_append _ _

/-- An array that is filled has a NUL only if there is room for it. -/
theorem zero_mem_copied_iff (h : dst.length = dsize) :
    0 ∈ copied dst src dsize ↔ src.bytes.length < dsize := by
  constructor
  · intro hmem
    by_contra hle
    rw [copied_of_le (by omega), List.drop_of_length_le (by omega), List.append_nil] at hmem
    exact src.nonzero 0 (List.mem_of_mem_take hmem) rfl
  · exact zero_mem_copied

end Copy

/-! ## `strcmp` -/

variable {array s : List UInt8}

/-- In an array with a NUL `strcmp` compares the strings. -/
theorem strcmpFrom_eq (hzero : 0 ∈ array) (hs : ∀ b ∈ s, b ≠ 0) (i : Nat) :
    strcmpFrom array s i = .ok (strcmpLoop (array.takeWhile (· ≠ 0)) s) := by
  induction array generalizing s i with
  | nil => cases hzero
  | cons c₁ array ih =>
      by_cases hc₁ : c₁ = 0
      · subst hc₁
        cases s with
        | nil => rfl
        | cons c₂ s =>
            have hc₂ : (0 : UInt8) ≠ c₂ := (hs c₂ List.mem_cons_self).symm
            rw [strcmpFrom, if_neg hc₂]
            rfl
      · rw [List.takeWhile_cons_of_pos (by simpa using hc₁)]
        cases s with
        | nil => rfl
        | cons c₂ s =>
            rw [strcmpFrom, strcmpLoop]
            by_cases hc : c₁ = c₂
            · have hrest : 0 ∈ array := (List.mem_cons.mp hzero).resolve_left (Ne.symm hc₁)
              rw [if_pos hc, if_neg hc₁, if_pos hc]
              exact ih hrest (List.forall_mem_cons.mp hs).2 (i + 1)
            · rw [if_neg hc, if_neg hc]

theorem strcmpName_eq (hzero : 0 ∈ array) (s : CString) :
    strcmpName array s = .ok (strcmp (.ofBytes array) s) :=
  strcmpFrom_eq hzero s.nonzero 0

/-- The array has the characters of the string, and then the byte `c`. -/
theorem strcmpFrom_append (hs : ∀ b ∈ s, b ≠ 0) (c : UInt8) (rest : List UInt8) (i : Nat) :
    strcmpFrom (s ++ c :: rest) s i = .ok c.toNat := by
  induction s generalizing i with
  | nil => exact congrArg Except.ok (Int.sub_zero _)
  | cons b s ih =>
      obtain ⟨hb, hs⟩ := List.forall_mem_cons.mp hs
      rw [List.cons_append, strcmpFrom, if_pos rfl, if_neg hb]
      exact ih hs (i + 1)

/-- The array has the characters of the string, and then it ends. -/
theorem strcmpFrom_self (hs : ∀ b ∈ s, b ≠ 0) (i : Nat) :
    strcmpFrom s s i = .error (.oob (i + s.length : Nat)) := by
  induction s generalizing i with
  | nil => rfl
  | cons b s ih =>
      obtain ⟨hb, hs⟩ := List.forall_mem_cons.mp hs
      rw [strcmpFrom, if_pos rfl, if_neg hb, ih hs (i + 1), List.length_cons, Nat.add_right_comm,
        Nat.add_assoc]

theorem strcmpName_ok_iff : (∀ s, ∃ r, strcmpName array s = .ok r) ↔ 0 ∈ array := by
  constructor
  · intro h
    by_contra hzero
    have hnonzero : ∀ b ∈ array, b ≠ 0 := by
      rintro b hb rfl
      exact hzero hb
    obtain ⟨r, hr⟩ := h ⟨array, hnonzero⟩
    rw [strcmpName, strcmpFrom_self hnonzero] at hr
    cases hr
  · intro hzero s
    exact ⟨_, strcmpName_eq hzero s⟩

section Lookup

variable {src name : CString} {dst : List UInt8} {dsize : Nat}

/-- The name in the array and the part of it that leaves room for the NUL. -/
theorem strcmpName_copied (src : CString) (hpos : 0 < dsize) (h : dst.length = dsize) :
    ∃ r, strcmpName (copied dst src dsize) (src.take (dsize - 1)) = .ok r ∧
      (r = 0 ↔ src.bytes.length < dsize) := by
  rw [strcmpName, CString.bytes_take]
  by_cases hlt : src.bytes.length < dsize
  · refine ⟨0, ?_, iff_of_true rfl hlt⟩
    rw [List.take_of_length_le (by omega), copied_of_lt hlt, List.append_assoc]
    exact strcmpFrom_append src.nonzero 0 _ 0
  · have hk : dsize - 1 < src.bytes.length := by omega
    have hlast := src.nonzero _ (List.getElem_mem hk)
    have hsplit : src.bytes.take dsize = src.bytes.take (dsize - 1) ++ [src.bytes[dsize - 1]] := by
      rw [← List.take_succ_eq_append_getElem hk, Nat.sub_add_cancel hpos]
    refine ⟨(src.bytes[dsize - 1].toNat : Int), ?_, iff_of_false ?_ hlt⟩
    · rw [copied_of_le (by omega), List.drop_of_length_le (by omega), List.append_nil, hsplit]
      exact strcmpFrom_append (fun b hb => src.nonzero b (List.mem_of_mem_take hb)) _ [] 0
    · intro hzero
      exact hlast (UInt8.toNat_inj.mp (by simpa using hzero))

/-! ## The index -/

/-- Devices with other names are passed over. -/
theorem fromNameBytes_append {pre : List (Nat × List UInt8)}
    (hpre : ∀ d ∈ pre, ∃ r, strcmpName d.2 name = .ok r ∧ r ≠ 0) (devs : List (Nat × List UInt8)) :
    fromNameBytes (pre ++ devs) name = fromNameBytes devs name := by
  induction pre with
  | nil => rfl
  | cons d pre ih =>
      obtain ⟨⟨r, hr, hne⟩, hpre⟩ := List.forall_mem_cons.mp hpre
      rw [List.cons_append, fromNameBytes, hr]
      exact (if_neg hne).trans (ih hpre)

/-- What is found is in the index. -/
theorem fromNameBytes_mem {devs : List (Nat × List UInt8)} {addr : Nat}
    (h : fromNameBytes devs name = .ok addr) : addr = 0 ∨ ∃ d ∈ devs, d.1 = addr := by
  induction devs with
  | nil => exact .inl (Except.ok.inj h).symm
  | cons d devs ih =>
      rw [fromNameBytes] at h
      cases hr : strcmpName d.2 name with
      | error e =>
          rw [hr] at h
          cases h
      | ok r =>
          rw [hr] at h
          by_cases hzero : r = 0
          · have haddr : Except.ok d.1 = Except.ok addr := (if_pos hzero).symm.trans h
            exact .inr ⟨d, List.mem_cons_self, Except.ok.inj haddr⟩
          · rcases ih ((if_neg hzero).symm.trans h) with haddr | ⟨d', hd', haddr⟩
            · exact .inl haddr
            · exact .inr ⟨d', List.mem_cons_of_mem _ hd', haddr⟩

/-- The names of an index of strings are in the arrays at their devices' addresses, and
end there. -/
structure NamesEnd (ix : DevIndex) (array : Nat → List UInt8) : Prop where
  ends : ∀ d ∈ ix.devs, 0 ∈ array d.addr
  name : ∀ d ∈ ix.devs, CString.ofBytes (array d.addr) = d.name

/-- While all names end in their arrays, the index of strings finds the same. -/
theorem fromNameBytes_eq_busOf {ix : DevIndex} {array : Nat → List UInt8} (h : NamesEnd ix array)
    (name : CString) :
    fromNameBytes (ix.devs.map fun d => (d.addr, array d.addr)) name = .ok (ix.busOf name) := by
  obtain ⟨hends, hname⟩ := h
  rw [DevIndex.busOf, DevIndex.fromName]
  generalize ix.devs = devs at hends hname ⊢
  induction devs with
  | nil => rfl
  | cons d devs ih =>
      obtain ⟨hd, hends⟩ := List.forall_mem_cons.mp hends
      obtain ⟨hn, hname⟩ := List.forall_mem_cons.mp hname
      rw [List.map_cons, fromNameBytes, strcmpName_eq hd, hn]
      by_cases hzero : strcmp d.name name = 0
      · rw [List.find?_cons_of_pos (by simpa using hzero)]
        exact if_pos hzero
      · rw [List.find?_cons_of_neg (by simpa using hzero)]
        exact (if_neg hzero).trans (ih hends hname)

/-- The renaming in `__probe_devices` keeps it so, with names that are short enough. -/
theorem NamesEnd.rename {ix : DevIndex} {array : Nat → List UInt8} (h : NamesEnd ix array)
    (addr : Nat) (hname : name.bytes.length < devNameMax) :
    NamesEnd (ix.rename addr name)
      (update array addr (copied (array addr) name devNameMax)) := by
  have hboth : ∀ d' ∈ (ix.rename addr name).devs,
      0 ∈ update array addr (copied (array addr) name devNameMax) d'.addr ∧
      CString.ofBytes (update array addr (copied (array addr) name devNameMax) d'.addr) =
        d'.name := by
    intro d' hd'
    obtain ⟨d, hd, rfl⟩ := List.mem_map.mp hd'
    by_cases haddr : d.addr = addr
    · subst haddr
      rw [if_pos rfl, update_self]
      exact ⟨zero_mem_copied hname, ofBytes_copied hname⟩
    · rw [if_neg haddr, update_of_ne haddr]
      exact ⟨h.ends d hd, h.name d hd⟩
  exact ⟨fun d' hd' => (hboth d' hd').1, fun d' hd' => (hboth d' hd').2⟩

/-- So after it every name is found as before, in the arrays as in the index. -/
theorem fromNameBytes_renamed {ix : DevIndex} {array : Nat → List UInt8} (h : NamesEnd ix array)
    {addr : Nat} (harray : devNameMax ≤ (array addr).length) {name : CString}
    (hname : name.bytes.length < devNameMax) (q : CString) :
    ∃ bytes n, strlcpyTo (array addr) name devNameMax = .ok (bytes, n) ∧
      fromNameBytes ((ix.rename addr name).devs.map fun d =>
        (d.addr, update array addr bytes d.addr)) q = .ok ((ix.rename addr name).busOf q) :=
  ⟨_, _, strlcpyTo_eq name harray, fromNameBytes_eq_busOf (h.rename addr hname) q⟩

/-- A bus without a name. -/
def namelessBus : DevIndex :=
  ⟨[⟨0x4000, .ofBytes [], .bus, 0, 0, Vector.replicate _ 0, nofun⟩], List.pairwise_singleton _ _⟩

theorem fromNameBytes_renamed_portio : ∃ bytes n,
    strlcpyTo (List.replicate 64 0) (.ofString "portio") devNameMax = .ok (bytes, n) ∧
      fromNameBytes [(0x4000, bytes)] (.ofString "portio") = .ok 0x4000 :=
  @fromNameBytes_renamed namelessBus (fun _ => List.replicate 64 0) ⟨by decide, by decide⟩ 0x4000
    (by decide) _ (by decide) _

theorem fromNameBytes_copied_iff (hpos : 0 < dsize) (h : dst.length = dsize)
    {pre post : List (Nat × List UInt8)} {addr : Nat} (haddr : addr ≠ 0)
    (hpre : ∀ d ∈ pre, ∃ r, strcmpName d.2 (src.take (dsize - 1)) = .ok r ∧ r ≠ 0)
    (hpost : ∀ d ∈ post, d.1 ≠ addr) :
    fromNameBytes (pre ++ (addr, copied dst src dsize) :: post) (src.take (dsize - 1)) =
      .ok addr ↔ src.bytes.length < dsize := by
  obtain ⟨r, hr, hiff⟩ := strcmpName_copied src hpos h
  rw [fromNameBytes_append hpre, fromNameBytes, hr, ← hiff]
  constructor
  · intro hfound
    by_contra hne
    rcases fromNameBytes_mem ((if_neg hne).symm.trans hfound) with hzero | ⟨d, hd, hd'⟩
    · exact haddr hzero
    · exact hpost d hd hd'
  · exact fun hzero => if_pos hzero

end Lookup

/-- `initdev` has the name from `strlcpy`. -/
theorem initdev_name {δ : Type} {dev dev' : RawDevice δ} {cls : Int} {src : CString} {devno : Nat}
    {drv : DriverOps δ} (h : initdev dev cls src devno drv = .ok dev') :
    ∃ n, strlcpyTo dev.name src devNameMax = .ok (dev'.name, n) := by
  rw [initdev] at h
  cases hcopy : strlcpyTo dev.name src devNameMax with
  | error e =>
      rw [hcopy] at h
      cases h
  | ok result =>
      rw [hcopy] at h
      refine ⟨result.2, ?_⟩
      by_cases hcls : cls ≠ drv.cls
      · have herror := (if_pos hcls).symm.trans h
        cases herror
      · have hrest := (if_neg hcls).symm.trans h
        by_cases hknown : cls ∈ devClasses
        · have hdev := (if_pos hknown).symm.trans hrest
          cases hdev
          rfl
        · have herror := (if_neg hknown).symm.trans hrest
          cases herror

/-- `strlcpy` writes `dsize` bytes at most. It leaves a string exactly if the source is
shorter than that, and the same goes for the name of a device: only then `strcmp` stays
in the array, and only then the device is found under as much of the name as there
is room for, behind devices with other names. -/
theorem device_name_iff (src : CString) :
    (∀ (dst : List UInt8) (dsize : Nat), 0 < dsize → dsize ≤ dst.length →
      ∃ dst' n, strlcpyTo dst src dsize = .ok (dst', n) ∧ dst'.length = dst.length ∧
        (∀ i, dsize ≤ i → dst'[i]? = dst[i]?) ∧
        (HoldsString dst' dsize (src.take (dsize - 1)) ↔ src.bytes.length < dsize)) ∧
    (∀ (array array' : List UInt8) (n : Nat), array.length = devNameMax →
      strlcpyTo array src devNameMax = .ok (array', n) →
      ((∀ s, ∃ r, strcmpName array' s = .ok r) ↔ src.bytes.length < devNameMax) ∧
      ∀ (pre post : List (Nat × List UInt8)) (addr : Nat), addr ≠ 0 →
        (∀ d ∈ pre, ∃ r, strcmpName d.2 (src.take (devNameMax - 1)) = .ok r ∧ r ≠ 0) →
        (∀ d ∈ post, d.1 ≠ addr) →
        (fromNameBytes (pre ++ (addr, array') :: post) (src.take (devNameMax - 1)) = .ok addr ↔
          src.bytes.length < devNameMax)) ∧
    ∀ (δ : Type) (dev dev' : RawDevice δ) (cls : Int) (devno : Nat) (drv : DriverOps δ),
      initdev dev cls src devno drv = .ok dev' →
        ∃ n, strlcpyTo dev.name src devNameMax = .ok (dev'.name, n) := by
  refine ⟨fun dst dsize hpos hle => ?_, fun array array' n harray hcopy => ?_, ?_⟩
  · exact ⟨_, _, strlcpyTo_eq src hle, length_copied hle, fun i => getElem?_copied,
      holdsString_copied_iff hpos hle⟩
  · rw [strlcpyTo_eq src harray.ge] at hcopy
    cases hcopy
    refine ⟨?_, fun pre post addr haddr hpre hpost => ?_⟩
    · rw [strcmpName_ok_iff, zero_mem_copied_iff harray]
    · exact fromNameBytes_copied_iff (by decide) harray haddr hpre hpost
  · exact fun δ dev dev' cls devno drv h => initdev_name h

/-- The name `uart`, in an array for a name. -/
theorem device_name_iff_uart :
    ∃ dst' n, strlcpyTo (List.replicate 64 0) (.ofString "uart") 64 = .ok (dst', n) ∧
      dst'.length = (List.replicate 64 (0 : UInt8)).length ∧
      (∀ i, 64 ≤ i → dst'[i]? = (List.replicate 64 (0 : UInt8))[i]?) ∧
      (HoldsString dst' 64 ((CString.ofString "uart").take (64 - 1)) ↔
        (CString.ofString "uart").bytes.length < 64) :=
  (device_name_iff (.ofString "uart")).1 _ 64 (by decide) (by decide)

/-- 64 letters. -/
def longName : CString := .ofBytes (List.replicate 64 0x61)

/-- A device with such a name. -/
def longDevice : RawDevice Unit := ⟨List.replicate 64 0x61, 1, 7, ()⟩

/-- The name has no end: `strcmp` reads the byte behind the array, and under the first
63 letters there is no device. -/
theorem initdev_unterminated :
    initdev ⟨List.replicate 64 0, 0, 0, ()⟩ 1 longName 7 ⟨1, ()⟩ = .ok longDevice ∧
    longDevice.name.length = devNameMax ∧ (0 : UInt8) ∉ longDevice.name ∧
    strcmpName longDevice.name longName = .error (.oob 64) ∧
    fromNameBytes [(0x1000, longDevice.name)] (longName.take 63) = .ok 0 :=
  ⟨rfl, rfl, by decide, rfl, rfl⟩

end Aim.Kern
