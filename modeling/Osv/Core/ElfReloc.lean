import Osv.Core.Elf
import Osv.Core.ElfAddr

/-!
# Applying `DT_RELA`: `object::relocate_rela`

`relocate_rela` (`core/elf.cc`) walks the `Elf64_Rela` entries of an object and, for each, writes
one word at `_base + r_offset`.  The word depends on the type in the low half of `r_info`:
nothing for `R_X86_64_NONE`, the address of the entry's symbol plus the addend for
`R_X86_64_64`, the base plus the addend for `R_X86_64_RELATIVE`, the symbol's address for
`R_X86_64_GLOB_DAT` and `R_X86_64_JUMP_SLOT`, and for the TLS types the defining module's index
(`R_X86_64_DPTMOD64`) or the symbol's `st_value` (`R_X86_64_DTPOFF64`, and `R_X86_64_TPOFF64`
less `tls_data().size`).  The symbol is `object::symbol(idx)`: the name of entry `idx` looked up
by `program::lookup` in module order, falling back to the object's own entry when that entry is
weak, and aborting otherwise.

**The model.**  An object is `RelaObject`: its base, its symbol table with the names of its
entries, the hash section `lookup_symbol` searches (`Osv.Core.lookupSymbolGnu` or
`lookupSymbolOld`), its visibility, its TLS module index and its relocation entries.  Words are
`UInt64`, the addend its two's-complement bits.  `relocateRela` returns the writes it makes, in
order, as (address, word) pairs, or `none` where the source aborts; an index past the symbol
table, which the source reads as garbage, is `none` too.  What an `STT_IFUNC` resolver returns
is the program's `ifunc`.

**The specification.**  `psabiRela` is the x86-64 psABI's table: `S + A`, `B + A`, `S`, the
module's index, `S + A` and `S + A − tlsSize`, where `S` is `0` for symbol index `STN_UNDEF`
and otherwise the symbol `object::symbol` finds.

**What holds.**  For every entry whose symbol index is not `STN_UNDEF` and whose type is not
one of the two TLS offsets, `relocate_rela` writes what the psABI says
(`relocateOne_eq_psabiOne`), and so on every table of such entries
(`relocateRela_eq_psabiRela`).

**What does not.**  `R_X86_64_DTPOFF64` drops the addend and `R_X86_64_TPOFF64` drops it too and
subtracts the size of a value-initialised `tls_data()`, which is `0`, so both write `st_value`
(`relocateOne_dtpoff`, `relocateOne_tpoff`, `relocate_rela_tls_offset`).  And an entry with
symbol index `STN_UNDEF` looks up the empty name of the null entry, which no module defines,
and aborts because that entry is not weak (`relocateOne_stnUndef`).
-/

namespace Osv.Core

/-! ## Relocation entries -/

/-- `R_X86_64_NONE` -/
def R_X86_64_NONE : UInt32 := 0
/-- `R_X86_64_64` -/
def R_X86_64_64 : UInt32 := 1
/-- `R_X86_64_GLOB_DAT` -/
def R_X86_64_GLOB_DAT : UInt32 := 6
/-- `R_X86_64_JUMP_SLOT` -/
def R_X86_64_JUMP_SLOT : UInt32 := 7
/-- `R_X86_64_RELATIVE` -/
def R_X86_64_RELATIVE : UInt32 := 8
/-- `R_X86_64_DPTMOD64`, as the source spells it -/
def R_X86_64_DPTMOD64 : UInt32 := 16
/-- `R_X86_64_DTPOFF64` -/
def R_X86_64_DTPOFF64 : UInt32 := 17
/-- `R_X86_64_TPOFF64` -/
def R_X86_64_TPOFF64 : UInt32 := 18

/-- `STT_NOTYPE` -/
def sttNotype : ℕ := 0
/-- `STT_IFUNC` -/
def sttIfunc : ℕ := 10

/-- An `Elf64_Rela`: `r_offset`, `r_info` and the bits of the signed `r_addend`. -/
structure Rela where
  offset : UInt64
  info : UInt64
  addend : UInt64
  deriving DecidableEq, Repr

/-- `u32 sym = info >> 32` -/
def Rela.sym (r : Rela) : ℕ := (r.info >>> 32).toNat

/-- `u32 type = info & 0xffffffff` -/
def Rela.type (r : Rela) : UInt32 := r.info.toUInt32

/-! ## Objects and symbol lookup -/

/-- The hash section `lookup_symbol` searches: `DT_GNU_HASH` when the object has one, else
`DT_HASH`. -/
inductive LookupHash where
  | gnu (t : GnuHash)
  | sysv (t : SysvHash)

/-- An `object` as `lookup_symbol`, `symbol` and `relocate_rela` see it. -/
structure RelaObject where
  /-- `_base` -/
  base : ℕ
  /-- the entries of `DT_SYMTAB` -/
  symtab : List Sym
  /-- the name of each entry, `strtab + st_name` -/
  names : List SymName
  /-- the section `lookup_symbol` walks -/
  hash : LookupHash
  /-- `visible()` for the calling thread -/
  visible : Bool
  /-- `_module_index` -/
  moduleIndex : ℕ
  /-- the entries of `DT_RELA` -/
  rela : List Rela

/-- `object::lookup_symbol(name)`: nothing from an invisible object, and an undefined entry
found counts as not found. -/
def RelaObject.lookupSymbol (o : RelaObject) (name : SymName) : Option Sym :=
  if !o.visible then none
  else
    let idx := match o.hash with
      | .gnu t => lookupSymbolGnu t o.names name
      | .sysv t => lookupSymbolOld t o.names name
    match idx.bind (o.symtab[·]?) with
    | some sym => if sym.shndx = shnUndef then none else some sym
    | none => none

/-- A `symbol_module`: an entry and the object it belongs to. -/
structure SymbolModule where
  symbol : Sym
  obj : RelaObject

/-- The loaded objects, in `_modules` order, and what calling an `STT_IFUNC` resolver at an
address returns. -/
structure Program where
  modules : List RelaObject
  ifunc : ℕ → ℕ

/-- `program::lookup(name)`: the first module that defines the name. -/
def Program.lookup (p : Program) (name : SymName) : Option SymbolModule :=
  p.modules.findSome? fun m => (m.lookupSymbol name).map fun s => ⟨s, m⟩

/-- `object::symbol(idx)`: the definition `program::lookup` finds for the name of entry `idx`;
else the entry itself if it is weak; else `abort()`. -/
def RelaObject.symbol (o : RelaObject) (p : Program) (idx : ℕ) : Option SymbolModule :=
  (o.symtab[idx]?).bind fun sym =>
    match p.lookup (symName o.names idx) with
    | some ret => some ret
    | none => if sym.info >>> 4 = stbWeak then some ⟨sym, o⟩ else none

/-- `symbol_module::relocated_addr()`, by `symbol_type`: `st_value` for `STT_NOTYPE`, the
relocated value for `STT_OBJECT` and `STT_FUNC`, what the resolver there returns for
`STT_IFUNC`, and `abort()` for any other type. -/
def SymbolModule.relocatedAddr (sm : SymbolModule) (p : Program) : Option ℕ :=
  let type := sm.symbol.info &&& 15
  if type = sttNotype then some sm.symbol.value
  else if type = sttObject ∨ type = sttFunc then
    some (Osv.Core.relocatedAddr sm.obj.base sm.symbol)
  else if type = sttIfunc then some (p.ifunc (Osv.Core.relocatedAddr sm.obj.base sm.symbol))
  else none

/-- The `size` of a `tls_data`, the one field `relocate_rela` reads. -/
structure TlsData where
  size : UInt64

/-- The value-initialised `tls_data()` that `R_X86_64_TPOFF64` subtracts the size of. -/
def tlsDataInit : TlsData := ⟨0⟩

/-! ## `relocate_rela` -/

/-- The `switch (type)` for one entry: the writes it makes at `_base + r_offset`, or `none` for
an `abort()`. -/
def relocateOne (p : Program) (o : RelaObject) (r : Rela) : Option (List (UInt64 × UInt64)) :=
  let addr := o.base.toUInt64 + r.offset
  let type := r.type
  if type = R_X86_64_NONE then some []
  else if type = R_X86_64_64 then
    (o.symbol p r.sym).bind fun sm => (sm.relocatedAddr p).map fun s =>
      [(addr, s.toUInt64 + r.addend)]
  else if type = R_X86_64_RELATIVE then some [(addr, o.base.toUInt64 + r.addend)]
  else if type = R_X86_64_JUMP_SLOT ∨ type = R_X86_64_GLOB_DAT then
    (o.symbol p r.sym).bind fun sm => (sm.relocatedAddr p).map fun s => [(addr, s.toUInt64)]
  else if type = R_X86_64_DPTMOD64 then
    (o.symbol p r.sym).map fun sm => [(addr, sm.obj.moduleIndex.toUInt64)]
  else if type = R_X86_64_DTPOFF64 then
    (o.symbol p r.sym).map fun sm => [(addr, sm.symbol.value.toUInt64)]
  else if type = R_X86_64_TPOFF64 then
    (o.symbol p r.sym).map fun sm => [(addr, sm.symbol.value.toUInt64 - tlsDataInit.size)]
  else none

/-- The loop of `relocate_rela` over the entries, with a per-entry step `one`: the writes of
every entry in order, or `none` at the first `abort()`. -/
def relaLoop {W : Type} (one : Rela → Option (List W)) : List Rela → Option (List W)
  | [] => some []
  | r :: rs => (one r).bind fun w => (relaLoop one rs).map (w ++ ·)

/-- `object::relocate_rela()` -/
def relocateRela (p : Program) (o : RelaObject) : Option (List (UInt64 × UInt64)) :=
  relaLoop (relocateOne p o) o.rela

/-! ## What the psABI says -/

/-- The psABI's word for one entry: `S` is `0` for `STN_UNDEF`, else the address (for the TLS
types the `st_value`) of the symbol `object::symbol` finds; `B` the base, `A` the addend, and
`tlsSize` the size of the static TLS block. -/
def psabiOne (p : Program) (o : RelaObject) (tlsSize : ℕ) (r : Rela) :
    Option (List (UInt64 × UInt64)) :=
  let addr := o.base.toUInt64 + r.offset
  let type := r.type
  let sym : Option SymbolModule := o.symbol p r.sym
  let sAddr : Option ℕ := if r.sym = 0 then some 0 else sym.bind (·.relocatedAddr p)
  let sValue : Option ℕ := if r.sym = 0 then some 0 else sym.map (·.symbol.value)
  let sModule : Option ℕ := if r.sym = 0 then some o.moduleIndex else sym.map (·.obj.moduleIndex)
  if type = R_X86_64_NONE then some []
  else if type = R_X86_64_64 then sAddr.map fun s => [(addr, s.toUInt64 + r.addend)]
  else if type = R_X86_64_RELATIVE then some [(addr, o.base.toUInt64 + r.addend)]
  else if type = R_X86_64_JUMP_SLOT ∨ type = R_X86_64_GLOB_DAT then
    sAddr.map fun s => [(addr, s.toUInt64)]
  else if type = R_X86_64_DPTMOD64 then sModule.map fun m => [(addr, m.toUInt64)]
  else if type = R_X86_64_DTPOFF64 then sValue.map fun s => [(addr, s.toUInt64 + r.addend)]
  else if type = R_X86_64_TPOFF64 then
    sValue.map fun s => [(addr, s.toUInt64 + r.addend - tlsSize.toUInt64)]
  else none

/-- The psABI's writes for the whole table. -/
def psabiRela (p : Program) (o : RelaObject) (tlsSize : ℕ) : Option (List (UInt64 × UInt64)) :=
  relaLoop (psabiOne p o tlsSize) o.rela

/-! ## Symbol resolution -/

section Lookup

variable {p : Program} {o : RelaObject} {idx : ℕ} {sym : Sym} {name : SymName}

/-- **`program::lookup` searches in module order**: it finds `name` in `m` exactly when no
module before `m` defines it. -/
theorem lookup_eq_some {sm : SymbolModule} :
    p.lookup name = some sm ↔ ∃ pre post, p.modules = pre ++ sm.obj :: post ∧
      sm.obj.lookupSymbol name = some sm.symbol ∧ ∀ m ∈ pre, m.lookupSymbol name = none := by
  constructor
  · intro h
    obtain ⟨pre, m, post, hmods, hm, hpre⟩ := List.findSome?_eq_some_iff.mp h
    obtain ⟨s, hs, rfl⟩ := Option.map_eq_some_iff.mp hm
    exact ⟨pre, post, hmods, hs, fun m' hm' => by simpa using hpre m' hm'⟩
  · rintro ⟨pre, post, hmods, hs, hpre⟩
    refine List.findSome?_eq_some_iff.mpr ⟨pre, sm.obj, post, hmods, ?_, fun m' hm' => ?_⟩
    · rw [hs]
      rfl
    · rw [hpre m' hm']
      rfl

/-- A weak entry no module defines resolves to itself. -/
theorem symbol_of_weak (hsym : o.symtab[idx]? = some sym)
    (hl : p.lookup (symName o.names idx) = none) (hw : sym.info >>> 4 = stbWeak) :
    o.symbol p idx = some ⟨sym, o⟩ := by
  rw [RelaObject.symbol, hsym, Option.bind_some, hl, if_pos hw]

end Lookup

/-! ## The loop -/

section Loop

variable {W : Type} {f g : Rela → Option (List W)}

theorem relaLoop_nil : relaLoop f [] = some [] := rfl

theorem relaLoop_cons (r : Rela) (rs : List Rela) :
    relaLoop f (r :: rs) = (f r).bind fun w => (relaLoop f rs).map (w ++ ·) := rfl

theorem relaLoop_congr : ∀ {rs : List Rela}, (∀ r ∈ rs, f r = g r) → relaLoop f rs = relaLoop g rs
  | [], _ => rfl
  | r :: rs, h => by
    rw [relaLoop_cons, relaLoop_cons, h r List.mem_cons_self,
      relaLoop_congr fun r' hr' => h r' (List.mem_cons_of_mem r hr')]

theorem relaLoop_singleton (r : Rela) : relaLoop f [r] = f r := by
  cases h : f r with
  | none => rw [relaLoop_cons, h, Option.bind_none]
  | some w => rw [relaLoop_cons, h, Option.bind_some, relaLoop_nil, Option.map_some, List.append_nil]

/-- One `abort()` anywhere in the table aborts the whole loop. -/
theorem relaLoop_eq_none : ∀ {rs : List Rela} {r : Rela}, r ∈ rs → f r = none →
    relaLoop f rs = none
  | r' :: rs, r, hr, hf => by
    rw [relaLoop_cons]
    rcases List.mem_cons.mp hr with rfl | hr
    · rw [hf, Option.bind_none]
    · cases f r' with
      | none => rfl
      | some w => rw [Option.bind_some, relaLoop_eq_none hr hf, Option.map_none]

end Loop

/-! ## `relocate_rela` against the psABI -/

section Psabi

variable (p : Program) (o : RelaObject) (tlsSize : ℕ) {r : Rela}

/-- **On every entry with a symbol index and a type other than the two TLS offsets,
`relocate_rela` writes the psABI's word.** -/
theorem relocateOne_eq_psabiOne (h0 : r.sym ≠ 0) (hd : r.type ≠ R_X86_64_DTPOFF64)
    (ht : r.type ≠ R_X86_64_TPOFF64) : relocateOne p o r = psabiOne p o tlsSize r := by
  -- with `S` resolved the two switches agree case by case; only the two TLS offsets differ
  simp only [relocateOne, psabiOne, if_neg h0, if_neg hd, if_neg ht, Option.map_bind,
    Option.map_map]
  rfl

theorem relocateRela_eq_psabiRela
    (h : ∀ r ∈ o.rela, r.sym ≠ 0 ∧ r.type ≠ R_X86_64_DTPOFF64 ∧ r.type ≠ R_X86_64_TPOFF64) :
    relocateRela p o = psabiRela p o tlsSize :=
  relaLoop_congr fun r hr =>
    relocateOne_eq_psabiOne p o tlsSize (h r hr).1 (h r hr).2.1 (h r hr).2.2

/-- `R_X86_64_DTPOFF64` writes `st_value`, without the addend. -/
theorem relocateOne_dtpoff (ht : r.type = R_X86_64_DTPOFF64) :
    relocateOne p o r =
      (o.symbol p r.sym).map fun sm => [(o.base.toUInt64 + r.offset, sm.symbol.value.toUInt64)] := by
  simp +decide only [relocateOne, ht, if_false, if_true]

/-- `R_X86_64_TPOFF64` writes `st_value` as well: no addend, and the size it subtracts is that of
a value-initialised `tls_data()`. -/
theorem relocateOne_tpoff (ht : r.type = R_X86_64_TPOFF64) :
    relocateOne p o r =
      (o.symbol p r.sym).map fun sm => [(o.base.toUInt64 + r.offset, sm.symbol.value.toUInt64)] := by
  simp +decide only [relocateOne, ht, if_false, if_true, tlsDataInit, UInt64.sub_zero]

theorem psabiOne_tpoff (h0 : r.sym ≠ 0) (ht : r.type = R_X86_64_TPOFF64) :
    psabiOne p o tlsSize r = (o.symbol p r.sym).map fun sm =>
      [(o.base.toUInt64 + r.offset, sm.symbol.value.toUInt64 + r.addend - tlsSize.toUInt64)] := by
  simp +decide only [psabiOne, ht, h0, if_false, if_true, Option.map_map]
  rfl

/-- An `R_X86_64_64` entry with symbol index `STN_UNDEF` aborts when its entry `0` does not
resolve, where the psABI writes the addend. -/
theorem relocateOne_stnUndef (h0 : r.sym = 0) (hs : o.symbol p 0 = none)
    (ht : r.type = R_X86_64_64) :
    relocateOne p o r = none ∧
      psabiOne p o tlsSize r = some [(o.base.toUInt64 + r.offset, r.addend)] := by
  constructor
  · simp +decide only [relocateOne, ht, h0, hs, if_false, if_true, Option.bind_none]
  · simp +decide only [psabiOne, ht, h0, if_false, if_true, Option.map_some]
    rw [show (0 : ℕ).toUInt64 = 0 from rfl, UInt64.zero_add]

end Psabi

/-- **`R_X86_64_TPOFF64` is not the psABI's.**  For an object whose one entry is a
`R_X86_64_TPOFF64` against a symbol `object::symbol` resolves, `relocate_rela` writes the
symbol's `st_value`, where the psABI writes `S + A − tlsSize`; the two differ whenever the addend
is not the size of the static TLS block. -/
theorem relocate_rela_tls_offset (p : Program) (o : RelaObject) (r : Rela) (sm : SymbolModule)
    (tlsSize : ℕ) (hrela : o.rela = [r]) (ht : r.type = R_X86_64_TPOFF64) (h0 : r.sym ≠ 0)
    (hs : o.symbol p r.sym = some sm) (hA : r.addend ≠ tlsSize.toUInt64) :
    relocateRela p o = some [(o.base.toUInt64 + r.offset, sm.symbol.value.toUInt64)] ∧
      psabiRela p o tlsSize = some [(o.base.toUInt64 + r.offset,
        sm.symbol.value.toUInt64 + r.addend - tlsSize.toUInt64)] ∧
      relocateRela p o ≠ psabiRela p o tlsSize := by
  have hcode : relocateRela p o = some [(o.base.toUInt64 + r.offset, sm.symbol.value.toUInt64)] := by
    rw [relocateRela, hrela, relaLoop_singleton, relocateOne_tpoff p o ht, hs, Option.map_some]
  have hspec : psabiRela p o tlsSize = some [(o.base.toUInt64 + r.offset,
      sm.symbol.value.toUInt64 + r.addend - tlsSize.toUInt64)] := by
    rw [psabiRela, hrela, relaLoop_singleton, psabiOne_tpoff p o tlsSize h0 ht, hs, Option.map_some]
  refine ⟨hcode, hspec, fun h => hA ?_⟩
  -- the two words agree only if `v = v + A - tlsSize`
  rw [hcode, hspec] at h
  have hw : sm.symbol.value.toUInt64 = sm.symbol.value.toUInt64 + r.addend - tlsSize.toUInt64 := by
    simpa using h
  grind

/-- A thread-local `x`: `STB_GLOBAL`, type `6` (`STT_TLS`), in section `1`, at offset `16` of the
module's TLS block. -/
def tlsSym : Sym := ⟨0x16, 1, 16⟩

/-- An `R_X86_64_TPOFF64` against symbol `1` with addend `8`. -/
def tpoffEntry : Rela := ⟨0x2000, 0x100000012, 8⟩

/-- An object at `0x400000` defining `x` through a one-bucket `DT_HASH`, with the one entry
`tpoffEntry`. -/
def tlsObject : RelaObject :=
  ⟨0x400000, [default, tlsSym], [[], [120]], .sysv (sysvHashOf [[], [120]] 1 [1]), true, 1,
    [tpoffEntry]⟩

/-- The program of `tlsObject` alone. -/
def tlsProgram : Program := ⟨[tlsObject], id⟩

theorem relocate_rela_tls_offset_one :
    tlsObject.rela = [tpoffEntry] ∧ tpoffEntry.type = R_X86_64_TPOFF64 ∧ tpoffEntry.sym ≠ 0 ∧
      tlsObject.symbol tlsProgram tpoffEntry.sym = some ⟨tlsSym, tlsObject⟩ ∧
      tpoffEntry.addend ≠ (64 : ℕ).toUInt64 ∧
      (relocateRela tlsProgram tlsObject =
          some [(tlsObject.base.toUInt64 + tpoffEntry.offset, tlsSym.value.toUInt64)] ∧
        psabiRela tlsProgram tlsObject 64 = some [(tlsObject.base.toUInt64 + tpoffEntry.offset,
          tlsSym.value.toUInt64 + tpoffEntry.addend - (64 : ℕ).toUInt64)] ∧
        relocateRela tlsProgram tlsObject ≠ psabiRela tlsProgram tlsObject 64) :=
  ⟨rfl, rfl, by decide, rfl, by decide,
    relocate_rela_tls_offset tlsProgram tlsObject tpoffEntry ⟨tlsSym, tlsObject⟩ 64 rfl rfl
      (by decide) rfl (by decide)⟩

end Osv.Core
