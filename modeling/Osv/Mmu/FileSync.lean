import Osv.Mmu.AddressSpace

/-!
# Writing a shared file mapping back: `file_vma::sync`

`mmu::msync(addr, length, flags)` (`core/mmu.cc`) rounds `length` up to pages and calls
`sync(start, end)` on every vma that meets `[start, end)`, in address order, stopping at the
first error; libc's `msync` and `munmap` both call it.  `vma::sync` does nothing;
`file_vma::sync` of a shared mapping clamps `start` and `end` to the vma, takes the file offset
`offset(start)` of the clamped start, and writes `min(end - start, fsize - off)` bytes there
with `write(_file, addr(), off, ...)`.

**The model.**  Memory is a function from addresses to bytes, and a file its bytes with its
`st_size` (`FileData`); `write` of `fs/fs.cc` stores the bytes and grows the size.  Addresses and
offsets are `uintptr_t` and `uint64_t` values, `uadd` and `usub`.  The vmas are those of the vma
list model with their `_shared` flag, all mappings of one file.

**What holds** (`Vma.sync_of_start_le`).  A sync whose range starts at or before the vma writes
each byte of the mapping below the end of the file at its offset, and nothing outside the
mapped part of the file.

**What does not** (`file_vma_sync_offset_mismatch`).  `addr()` is the vma's own start, not the
clamped one: a sync that starts inside the vma, as `msync` of a later part of a mapping or
`munmap` of its tail does, writes at `offset(start)` the bytes from the vma's start.  And
`fsize - off` wraps when the synced part begins past the end of the file, so the sync then
writes the whole range there and grows the file.
-/

namespace Osv.Mmu

/-- A file as `fo_stat` and `fo_write` see it: its bytes and `st_size`. -/
structure FileData where
  bytes : ℕ → UInt8
  size : ℕ

/-- `write(f, buffer, offset, len)`: the `len` bytes of memory from `buffer` go to the file at
`offset`, and the file grows to cover them. -/
def FileData.write (f : FileData) (mem : ℕ → UInt8) (buffer offset len : ℕ) : FileData :=
  ⟨fun k => if offset ≤ k ∧ k < offset + len then mem (buffer + (k - offset)) else f.bytes k,
    max f.size (offset + len)⟩

/-- `sync(start, end)` of a vma with its `_shared` flag: `vma::sync` for an anonymous vma,
`file_vma::sync` for a file vma, whose `_offset` its kind holds. -/
def Vma.sync (v : Vma) (shared : Bool) (mem : ℕ → UInt8) (f : FileData) (start stop : ℕ) :
    Except Errno FileData :=
  match v.kind with
  | .anon => .ok f
  | .file o =>
      if shared then
        let start := max start v.start
        let stop := min stop v.stop
        let off := uadd o (usub start v.start)
        .ok (f.write mem v.start off (min (usub stop start) (usub f.size off)))
      else .error .enomem

/-- The loop of `mmu::msync` over the vmas that meet the range: the error of the last `sync`
and the file after. -/
def msyncLoop (mem : ℕ → UInt8) (start stop : ℕ) :
    List (Vma × Bool) → Option Errno → FileData → Option Errno × FileData
  | [], err, f => (err, f)
  | v :: vmas, _, f =>
      match v.1.sync v.2 mem f start stop with
      | .ok f' => msyncLoop mem start stop vmas none f'
      | .error e => (some e, f)

/-- `mmu::msync(addr, length, flags)` over the vmas in address order: `ENOMEM` when no vma meets
the range. -/
def msync (vmas : List (Vma × Bool)) (mem : ℕ → UInt8) (f : FileData) (addr length : ℕ) :
    Option Errno × FileData :=
  msyncLoop mem addr (uadd addr (alignUp length))
    (vmas.filter fun v => v.1.start < uadd addr (alignUp length) ∧ addr < v.1.stop)
    (some .enomem) f

/-! ## What a sync writes -/

theorem FileData.write_bytes (f : FileData) (mem : ℕ → UInt8) (buffer offset len k : ℕ) :
    (f.write mem buffer offset len).bytes k =
      if offset ≤ k ∧ k < offset + len then mem (buffer + (k - offset)) else f.bytes k := rfl

/-- **A sync from the vma's start** writes every byte of the mapping that lies below the end of
the file at its offset, and no byte of the file outside the part the vma maps. -/
theorem Vma.sync_of_start_le {v : Vma} {o start stop : ℕ} {mem : ℕ → UInt8} {f : FileData}
    (hk : v.kind = .file o) (hstart : start ≤ v.start) (hstop : v.start ≤ stop)
    (hv : v.start ≤ v.stop) (hw : v.stop < wordSize) (hwo : o + (v.stop - v.start) < wordSize)
    (ho : o ≤ f.size) (hf : f.size < wordSize) :
    ∃ f', v.sync true mem f start stop = .ok f' ∧
      (∀ x k, v.start ≤ x → x < min stop v.stop → v.offset x = some k → k < f.size →
        f'.bytes k = mem x) ∧
      ∀ k, f'.bytes k ≠ f.bytes k → o ≤ k ∧ k < f.size := by
  have hmax : max start v.start = v.start := Nat.max_eq_right hstart
  have hoff : uadd o (usub v.start v.start) = o := by
    rw [usub_of_le (by omega) (Nat.le_refl _), Nat.sub_self, uadd_of_lt (by omega), Nat.add_zero]
  have hlen : min (usub (min stop v.stop) v.start) (usub f.size o) =
      min (min stop v.stop - v.start) (f.size - o) := by
    rw [usub_of_le (by omega) (by omega), usub_of_le hf ho]
  refine ⟨f.write mem v.start o (min (min stop v.stop - v.start) (f.size - o)),
    by simp only [Vma.sync, hk, if_true, hmax, hoff, hlen], ?_, ?_⟩
  · -- the byte at offset `o + (x - start)` comes from `x`
    intro x k hx hxs hkx hkf
    simp only [Vma.offset, hk, Option.some.injEq] at hkx
    rw [usub_of_le (by omega) hx, uadd_of_lt (by omega)] at hkx
    subst hkx
    rw [FileData.write_bytes, if_pos ⟨Nat.le_add_right _ _, by omega⟩]
    congr 1
    omega
  · intro k hk'
    rw [FileData.write_bytes] at hk'
    by_cases hin : o ≤ k ∧ k < o + min (min stop v.stop - v.start) (f.size - o)
    · exact ⟨hin.1, by omega⟩
    · exact absurd (if_neg hin) hk'

/-! ## `msync` of the second half of a mapping -/

/-- A shared mapping of the first `0x2000` bytes of a file at `0x1000`. -/
def sharedVma : Vma := ⟨0, 0x1000, 0x3000, 3, .file 0⟩

/-- Memory whose second page of the mapping differs from its first. -/
def twoPageMem : ℕ → UInt8 := fun a => if a < 0x2000 then 1 else 2

theorem file_vma_sync_offset_mismatch :
    (∃ f', msync [(sharedVma, true)] twoPageMem ⟨fun _ => 0, 0x2000⟩ 0x2000 0x1000 = (none, f') ∧
      sharedVma.offset 0x2000 = some 0x1000 ∧ f'.bytes 0x1000 ≠ twoPageMem 0x2000) ∧
    ∃ f', msync [(sharedVma, true)] twoPageMem ⟨fun _ => 0, 0x800⟩ 0x2000 0x1000 = (none, f') ∧
      sharedVma.offset 0x2000 = some 0x1000 ∧ f'.bytes 0x1000 ≠ 0 ∧ f'.size = 0x2000 := by
  refine ⟨⟨_, rfl, by decide, by decide⟩, _, rfl, by decide, by decide, by decide⟩

end Osv.Mmu
