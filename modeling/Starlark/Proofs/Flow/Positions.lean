import Starlark.Code.Program
import Starlark.Proofs.Flow.Emission

/-!
# Source positions of emitted code

A line table is read back row by row (`LineTable.decode_encode`): the entries of a row add up to its
differences, however often they were cut off. The rows that are written while blocks are emitted are
those of the instructions with a position, at the addresses where the instructions stand. So the
position of an address is that of the nearest instruction with a position at or before it
(`position_assembled`).
-/

set_option autoImplicit false

namespace Starlark

namespace LineTable

/-! ## Entries -/

theorem clip_le (x : Int) {lo hi : Int} (h : lo ≤ hi) : lo ≤ clip x lo hi ∧ clip x lo hi ≤ hi := by
  unfold clip
  split
  · exact ⟨Int.le_refl _, h⟩
  · split
    · exact ⟨h, Int.le_refl _⟩
    · omega

/-- An entry holds its three differences and its flag. -/
theorem fields_pack {dpc : Nat} {dline dcol : Int} (more : Bool) (hpc : dpc ≤ 15)
    (hline : -16 ≤ dline ∧ dline ≤ 15) (hcol : -32 ≤ dcol ∧ dcol ≤ 31) :
    (pack dpc dline dcol more).toNat / 4096 = dpc ∧
      signed ((pack dpc dline dcol more).toNat / 128 % 32) 16 = dline ∧
      signed ((pack dpc dline dcol more).toNat / 2 % 64) 32 = dcol ∧
      (pack dpc dline dcol more).toNat % 2 = (if more then 1 else 0) := by
  -- below, `a` and `b` are the differences as unsigned fields
  obtain ⟨a, ha⟩ : ∃ a : Nat, dline % 32 = a := ⟨(dline % 32).toNat, by omega⟩
  obtain ⟨b, hb⟩ : ∃ b : Nat, dcol % 64 = b := ⟨(dcol % 64).toNat, by omega⟩
  have hbit : (if more then 1 else 0) ≤ 1 := by split <;> simp
  have hvalue : (pack dpc dline dcol more).toNat =
      dpc * 4096 + a * 128 + b * 2 + (if more then 1 else 0) := by
    rw [pack, ha, hb, UInt16.toNat_ofNat']
    apply Nat.mod_eq_of_lt
    simp only [Int.toNat_natCast]
    omega
  generalize (if more then 1 else 0) = bit at hvalue hbit
  rw [hvalue]
  unfold signed
  refine ⟨by omega, ?_, ?_, by omega⟩
  · rw [show (dpc * 4096 + a * 128 + b * 2 + bit) / 128 % 32 = a by omega]
    split <;> omega
  · rw [show (dpc * 4096 + a * 128 + b * 2 + bit) / 2 % 64 = b by omega]
    split <;> omega

/-- The entries of a row are read as one row, with all of its differences. -/
theorem decodeFrom_entries (dpc : Nat) (dline dcol : Int) (pc : Nat) (line col : Int)
    (rest : List UInt16) :
    decodeFrom pc line col (entries dpc dline dcol ++ rest) =
      ⟨pc + dpc, UInt32.ofNat (line + dline).toNat, UInt32.ofNat (col + dcol).toNat⟩ ::
        decodeFrom (pc + dpc) (line + dline) (col + dcol) rest := by
  have hline := fun x => clip_le x (show (-16 : Int) ≤ 15 by decide)
  have hcol := fun x => clip_le x (show (-32 : Int) ≤ 31 by decide)
  induction dpc, dline, dcol using entries.induct generalizing pc line col with
  | case1 dpc dline dcol p l c hfits =>
    obtain ⟨hp, hl, hc⟩ := hfits
    obtain ⟨f1, f2, f3, f4⟩ := fields_pack false (Nat.min_le_right dpc 15) (hline dline) (hcol dcol)
    rw [entries]
    simp only [p, l, c] at hp hl hc
    simp only [hp, hl, hc, and_self, ↓reduceIte] at f1 f2 f3 f4 ⊢
    simp only [List.cons_append, List.nil_append, decodeFrom, f1, f2, f3, f4, ↓reduceIte,
      Bool.false_eq_true]
  | case2 dpc dline dcol p l c hcut ih =>
    obtain ⟨f1, f2, f3, f4⟩ := fields_pack true (Nat.min_le_right dpc 15) (hline dline) (hcol dcol)
    rw [entries]
    simp only [p, l, c] at hcut ih
    rw [if_neg hcut, List.cons_append, decodeFrom]
    simp only [f1, f2, f3, f4, ↓reduceIte, one_ne_zero]
    rw [ih]
    -- what was cut off is in the rest of the entries
    have h1 : pc + min dpc 15 + (dpc - min dpc 15) = pc + dpc := by omega
    have h2 : ∀ x d e : Int, x + d + (e - d) = x + e := by intro x d e; omega
    rw [h1, h2, h2]

/-! ## Tables -/

/-- Rows in order of address, none before `pc`, are read back. -/
theorem decodeFrom_encodeFrom {rows : List Row} {pc : Nat} (line col : UInt32)
    (hsorted : rows.Pairwise fun r s => r.pc ≤ s.pc) (hstart : ∀ r ∈ rows, pc ≤ r.pc) :
    decodeFrom pc line.toNat col.toNat (encodeFrom pc line col rows) = rows := by
  induction rows generalizing pc line col with
  | nil => rfl
  | cons r rows ih =>
    obtain ⟨hfirst, hsorted⟩ := List.pairwise_cons.1 hsorted
    have hpc : pc + (r.pc - pc) = r.pc := Nat.add_sub_cancel' (hstart r List.mem_cons_self)
    have hline : (line.toNat : Int) + (r.line.toNat - line.toNat) = r.line.toNat := by omega
    have hcol : (col.toNat : Int) + (r.col.toNat - col.toNat) = r.col.toNat := by omega
    rw [encodeFrom, decodeFrom_entries, hpc, hline, hcol, ih r.line r.col hsorted hfirst]
    simp

theorem decode_encode (start : Position) {rows : List Row}
    (hsorted : rows.Pairwise fun r s => r.pc ≤ s.pc) :
    decode start (encode start rows) = rows :=
  decodeFrom_encodeFrom start.line start.col hsorted fun _ _ => Nat.zero_le _

/-! ## Looking up -/

section RowAt

variable {rows : List Row} {pc : Nat}

/-- The row of an address is the last one at or before it. -/
theorem rowAt?_eq_some {r : Row} (hsorted : rows.Pairwise fun r s => r.pc < s.pc)
    (hr : r ∈ rows) (hle : r.pc ≤ pc) (hlast : ∀ s ∈ rows, s.pc ≤ pc → s.pc ≤ r.pc) :
    rowAt? rows pc = some r := by
  obtain ⟨before, after, rfl⟩ := List.append_of_mem hr
  obtain ⟨-, hafter, hbefore⟩ := List.pairwise_append.1 hsorted
  -- the rows are sorted, so those in question are a prefix that ends with the one sought
  have hfront : ∀ s ∈ before, decide (s.pc ≤ pc) = true := by
    intro s hs
    have hlt := hbefore s hs r List.mem_cons_self
    exact decide_eq_true (by omega)
  have hback : (after.takeWhile fun s => decide (s.pc ≤ pc)) = [] := by
    cases after with
    | nil => rfl
    | cons s after =>
      have hlt := (List.pairwise_cons.1 hafter).1 s List.mem_cons_self
      have hs : ¬ s.pc ≤ pc := by
        intro hle
        have hback := hlast s (by simp) hle
        omega
      exact List.takeWhile_cons_of_neg (by simpa using hs)
  rw [rowAt?, List.takeWhile_append_of_pos hfront,
    List.takeWhile_cons_of_pos (by simpa using hle), hback]
  simp

theorem rowAt?_eq_none (h : ∀ r ∈ rows, pc < r.pc) : rowAt? rows pc = none := by
  cases rows with
  | nil => rfl
  | cons r rows =>
    have hr : ¬ r.pc ≤ pc := Nat.not_le.2 (h r List.mem_cons_self)
    rw [rowAt?, List.takeWhile_cons_of_neg (by simpa using hr)]
    rfl

end RowAt

end LineTable

/-! ## Emitted instructions -/

namespace Emit

/-- An instruction in a code stream. -/
structure Located where
  pc : Nat
  insn : Insn

/-- An instruction in a code stream has a position. -/
def Located.isPositioned (x : Located) : Bool := x.insn.pos.isValid

/-- The row of an instruction in a code stream. -/
def Located.row (x : Located) : Row := ⟨x.pc, x.insn.pos.line, x.insn.pos.col⟩

/-- Instructions one after another, from an address on. -/
def locate (pc : Nat) : List Insn → List Located
  | [] => []
  | i :: rest => ⟨pc, i⟩ :: locate (pc + (insnBytes i).length) rest

/-- The instructions of blocks one after another, from an address on. -/
def locateBlocks (g : BlockGraph) (l : Layout) (pc : Nat) : List BlockId → List Located
  | [] => []
  | b :: rest => locate pc (resolved g l b) ++ locateBlocks g l (pc + (chunk g l b).length) rest

/-- The instructions of a layout, where they stand in its code. -/
def located (g : BlockGraph) (l : Layout) : List Located := locateBlocks g l 0 l.order.toList

/-- The rows of instructions that have a position. -/
def rowsOf (xs : List Located) : List Row := (xs.filter Located.isPositioned).map Located.row

theorem rowsOf_append (xs ys : List Located) : rowsOf (xs ++ ys) = rowsOf xs ++ rowsOf ys := by
  simp [rowsOf]

variable {g : BlockGraph} {l : Layout}

theorem length_insnBytes_pos (i : Insn) : 0 < (insnBytes i).length := by
  unfold insnBytes
  split
  · exact Nat.succ_pos _
  · exact Nat.one_pos

/-- Located instructions stand in order, between the first address and the end of their bytes. -/
theorem locate_sorted (pc : Nat) (is : List Insn) :
    (locate pc is).Pairwise (fun x y => x.pc < y.pc) ∧
      ∀ x ∈ locate pc is, pc ≤ x.pc ∧ x.pc < pc + (is.flatMap insnBytes).length := by
  -- every instruction has at least one byte, so the next one starts behind it
  induction is generalizing pc with
  | nil => exact ⟨.nil, fun x hx => absurd hx List.not_mem_nil⟩
  | cons i is ih =>
    obtain ⟨hsorted, hrange⟩ := ih (pc + (insnBytes i).length)
    have hpos := length_insnBytes_pos i
    constructor
    · refine List.pairwise_cons.2 ⟨?_, hsorted⟩
      intro x hx
      have hx := (hrange x hx).1
      simp only
      omega
    · intro x hx
      rw [List.flatMap_cons, List.length_append]
      rcases List.mem_cons.1 hx with rfl | hx
      · simp only
        omega
      · have hx := hrange x hx
        omega

theorem locateBlocks_sorted (pc : Nat) (bs : List BlockId) :
    (locateBlocks g l pc bs).Pairwise (fun x y => x.pc < y.pc) ∧
      ∀ x ∈ locateBlocks g l pc bs, pc ≤ x.pc := by
  induction bs generalizing pc with
  | nil => exact ⟨.nil, fun x hx => absurd hx List.not_mem_nil⟩
  | cons b bs ih =>
    obtain ⟨hsorted, hrange⟩ := ih (pc + (chunk g l b).length)
    obtain ⟨hsortedb, hrangeb⟩ := locate_sorted pc (resolved g l b)
    -- the jump behind a block only moves the next block further
    have hchunk : ((resolved g l b).flatMap insnBytes).length ≤ (chunk g l b).length := by
      rw [chunk, List.length_append]
      exact Nat.le_add_right _ _
    constructor
    · refine List.pairwise_append.2 ⟨hsortedb, hsorted, ?_⟩
      intro x hx y hy
      have hx := (hrangeb x hx).2
      have hy := hrange y hy
      omega
    · intro x hx
      rcases List.mem_append.1 hx with hx | hx
      · exact (hrangeb x hx).1
      · have hx := hrange x hx
        omega

theorem map_insn_locate (pc : Nat) (is : List Insn) : (locate pc is).map Located.insn = is := by
  induction is generalizing pc with
  | nil => rfl
  | cons i is ih => rw [locate, List.map_cons, ih]

theorem map_insn_locateBlocks (pc : Nat) (bs : List BlockId) :
    (locateBlocks g l pc bs).map Located.insn = bs.flatMap (resolved g l) := by
  induction bs generalizing pc with
  | nil => rfl
  | cons b bs ih => rw [locateBlocks, List.map_append, map_insn_locate, ih, List.flatMap_cons]

/-- The bytes of a located instruction stand at its address. -/
theorem codeAt_locate {code : Array UInt8} {pc : Nat} {is : List Insn}
    (h : CodeAt code pc (is.flatMap insnBytes)) :
    ∀ x ∈ locate pc is, CodeAt code x.pc (insnBytes x.insn) := by
  induction is generalizing pc with
  | nil => exact fun x hx => absurd hx List.not_mem_nil
  | cons i is ih =>
    rw [List.flatMap_cons, CodeAt.append_iff] at h
    intro x hx
    rcases List.mem_cons.1 hx with rfl | hx
    · exact h.1
    · exact ih h.2 x hx

theorem codeAt_locateBlocks {code : Array UInt8} {pc : Nat} {bs : List BlockId}
    (h : CodeAt code pc (bs.flatMap (chunk g l))) :
    ∀ x ∈ locateBlocks g l pc bs, CodeAt code x.pc (insnBytes x.insn) := by
  induction bs generalizing pc with
  | nil => exact fun x hx => absurd hx List.not_mem_nil
  | cons b bs ih =>
    rw [List.flatMap_cons, CodeAt.append_iff] at h
    obtain ⟨hb, hbs⟩ := h
    rw [chunk, CodeAt.append_iff] at hb
    intro x hx
    rcases List.mem_append.1 hx with hx | hx
    · exact codeAt_locate hb.1 x hx
    · exact ih hbs x hx

/-! ## Rows of emitted code -/

/-- Writing instructions adds the rows of those that have a position. -/
theorem toList_rows_insns (is : List Insn) (o : Output) :
    (is.foldl insn o).rows.toList = o.rows.toList ++ rowsOf (locate o.code.size is) := by
  induction is generalizing o with
  | nil => simp [locate, rowsOf]
  | cons i is ih =>
    have hsize : (insn o i).code.size = o.code.size + (insnBytes i).length := by
      have hcode := congrArg List.length (toList_code_insns [i] o)
      simpa using hcode
    have hrow : (insn o i).rows.toList = o.rows.toList ++ rowsOf [⟨o.code.size, i⟩] := by
      by_cases hpos : i.pos.isValid = true
      · simp [insn, rowsOf, Located.isPositioned, Located.row, hpos]
      · simp [insn, rowsOf, Located.isPositioned, hpos]
    rw [List.foldl_cons, ih, hsize, hrow, List.append_assoc, ← rowsOf_append]
    rfl

theorem rows_ending {o o' : Output} {b : BlockId} (h : ending g l b o = .ok o') :
    o'.rows = o.rows := by
  unfold ending at h
  split at h
  · cases h
    rfl
  · rename_i c hj
    cases ht : g.target c with
    | error e =>
      rw [ht] at h
      cases h
    | ok t =>
      simp only [ht, bind, Except.bind] at h
      split at h <;> cases h <;> rfl

theorem toList_rows_block {o o' : Output} {b : BlockId} (h : block g l o b = .ok o') :
    o'.rows.toList = o.rows.toList ++ rowsOf (locate o.code.size (resolved g l b)) := by
  rw [rows_ending (block_eq_ok h), toList_rows_insns]

theorem toList_rows_blocks {bs : List BlockId} {o o' : Output}
    (h : bs.foldlM (block g l) o = .ok o') :
    o'.rows.toList = o.rows.toList ++ rowsOf (locateBlocks g l o.code.size bs) := by
  induction bs generalizing o with
  | nil =>
    cases h
    simp [locateBlocks, rowsOf]
  | cons b bs ih =>
    obtain ⟨o1, hb, hbs⟩ := blocks_cons_eq_ok h
    have hsize : o1.code.size = o.code.size + (chunk g l b).length := by
      have hcode := congrArg List.length (toList_code_block hb)
      simpa using hcode
    rw [ih hbs, toList_rows_block hb, hsize, List.append_assoc, locateBlocks, rowsOf_append]

end Emit

open Emit LineTable

/-- The line table of a layout has the rows of its instructions. -/
theorem Layout.lines_assemble {g : BlockGraph} {l : Layout} {start : Position} {a : Assembled}
    (h : l.assemble g start = .ok a) : a.lines = LineTable.encode start (rowsOf (located g l)) := by
  obtain ⟨o, ho, -, rfl⟩ := Layout.blocks_of_assemble h
  have hrows := toList_rows_blocks ho
  simp only [List.nil_append, Array.size_empty] at hrows
  rw [hrows]
  rfl

theorem rowsOf_sorted {xs : List Located} (h : xs.Pairwise fun x y => x.pc < y.pc) :
    (rowsOf xs).Pairwise fun r s => r.pc < s.pc :=
  List.pairwise_map.2 (h.filter _)

/-- The rows of a line table are those of the emitted instructions that have a position, each at the
address where its instruction is read, in order of address. The position of an address is that of
the last such instruction at or before it, so its own if it has one; before all of them it is that
of the function. -/
theorem position_assembled {g : BlockGraph} {l : Layout} {start : Position} {a : Assembled}
    (h : l.assemble g start = .ok a) :
    (located g l).map Located.insn = l.order.toList.flatMap (resolved g l) ∧
    (located g l).Pairwise (fun x y => x.pc < y.pc) ∧
    (∀ x ∈ located g l, ∃ next, fetch a.code x.pc = .ok ⟨x.insn.op, operand? x.insn, next⟩) ∧
    LineTable.decode start a.lines =
      ((located g l).filter fun x => x.insn.pos.line ≠ 0).map (fun x =>
        ⟨x.pc, x.insn.pos.line, x.insn.pos.col⟩) ∧
    ∀ c : Code, c.pos = start → c.lines = a.lines →
      (∀ x ∈ located g l, x.insn.pos.line ≠ 0 → c.position x.pc = x.insn.pos) ∧
      (∀ pc, ∀ x ∈ located g l, x.insn.pos.line ≠ 0 → x.pc ≤ pc →
        (∀ y ∈ located g l, y.insn.pos.line ≠ 0 → y.pc ≤ pc → y.pc ≤ x.pc) →
          c.position pc = x.insn.pos) ∧
      (∀ pc, (∀ x ∈ located g l, x.insn.pos.line ≠ 0 → pc < x.pc) → c.position pc = start) := by
  have hsorted : (located g l).Pairwise fun x y => x.pc < y.pc := (locateBlocks_sorted 0 _).1
  have hvalid : ∀ x : Located, x.isPositioned = true ↔ x.insn.pos.line ≠ 0 := by
    intro x
    simp [Located.isPositioned, Position.isValid]
  have hrows : LineTable.decode start a.lines = rowsOf (located g l) := by
    rw [Layout.lines_assemble h]
    apply decode_encode
    exact (rowsOf_sorted hsorted).imp Nat.le_of_lt
  have hmem : ∀ r, r ∈ rowsOf (located g l) ↔
      ∃ x ∈ located g l, x.insn.pos.line ≠ 0 ∧ x.row = r := by
    intro r
    simp [rowsOf, hvalid, and_assoc]
  refine ⟨map_insn_locateBlocks 0 _, hsorted, ?_, ?_, ?_⟩
  · intro x hx
    have hcode : CodeAt a.code 0 (l.order.toList.flatMap (chunk g l)) := by
      have hbytes : a.code.toList = [] ++ l.order.toList.flatMap (chunk g l) ++ [] := by
        rw [(Layout.assemble_eq_ok h).1, List.nil_append, List.append_nil]
      exact CodeAt.of_toList_eq hbytes
    exact ⟨_, fetch_insnBytes (codeAt_locateBlocks hcode x hx)⟩
  · rw [hrows, rowsOf]
    apply congrArg (List.map Located.row)
    apply List.filter_congr
    intro x _
    rw [Bool.eq_iff_iff, hvalid, decide_eq_true_iff]
  · intro c hpos hlines
    -- the row that is looked up is that of the last positioned instruction that starts by then
    have hnearest : ∀ pc, ∀ x ∈ located g l, x.insn.pos.line ≠ 0 → x.pc ≤ pc →
        (∀ y ∈ located g l, y.insn.pos.line ≠ 0 → y.pc ≤ pc → y.pc ≤ x.pc) →
          c.position pc = x.insn.pos := by
      intro pc x hx hv hle hlast
      have hrow : rowAt? (rowsOf (located g l)) pc = some x.row := by
        apply rowAt?_eq_some (rowsOf_sorted hsorted) ((hmem _).2 ⟨x, hx, hv, rfl⟩) hle
        intro s hs hspc
        obtain ⟨y, hy, hvy, rfl⟩ := (hmem s).1 hs
        exact hlast y hy hvy hspc
      rw [Code.position, hpos, hlines, hrows, hrow]
      rfl
    refine ⟨?_, hnearest, ?_⟩
    · intro x hx hv
      exact hnearest x.pc x hx hv (Nat.le_refl _) fun y _ _ hy => hy
    · intro pc hbefore
      have hnone : rowAt? (rowsOf (located g l)) pc = none := by
        apply rowAt?_eq_none
        intro r hr
        obtain ⟨x, hx, hv, rfl⟩ := (hmem r).1 hr
        exact hbefore x hx hv
      rw [Code.position, hpos, hlines, hrows, hnone]

/-- Code whose positions are far from each other, with code of no position before and between. -/
def scatteredGraph : BlockGraph :=
  #[{ insns := #[⟨.pushNone, 0, .absent⟩, ⟨.pushTrue, 0, ⟨300, 7⟩⟩, ⟨.pop, 0, .absent⟩,
      ⟨.ret, 0, ⟨2, 900⟩⟩] }]

theorem position_assembled_scattered : ∃ l a, scatteredGraph.layout 0 = .ok l ∧
    l.assemble scatteredGraph ⟨1, 1⟩ = .ok a ∧
    ∀ c : Code, c.pos = ⟨1, 1⟩ → c.lines = a.lines →
      c.position 0 = ⟨1, 1⟩ ∧ c.position 2 = ⟨300, 7⟩ ∧ c.position 3 = ⟨2, 900⟩ := by
  obtain ⟨l, a, hl, ha, hlocated⟩ : ∃ l a, scatteredGraph.layout 0 = .ok l ∧
      l.assemble scatteredGraph ⟨1, 1⟩ = .ok a ∧
      located scatteredGraph l = [⟨0, ⟨.pushNone, 0, .absent⟩⟩, ⟨1, ⟨.pushTrue, 0, ⟨300, 7⟩⟩⟩,
        ⟨2, ⟨.pop, 0, .absent⟩⟩, ⟨3, ⟨.ret, 0, ⟨2, 900⟩⟩⟩] := ⟨_, _, rfl, rfl, rfl⟩
  refine ⟨l, a, hl, ha, ?_⟩
  intro c hpos hlines
  obtain ⟨-, -, -, -, hposition⟩ := position_assembled ha
  obtain ⟨hown, hnearest, hnone⟩ := hposition c hpos hlines
  rw [hlocated] at hown hnearest hnone
  refine ⟨hnone 0 (by simp [Position.absent]), ?_, ?_⟩
  · exact hnearest 2 ⟨1, ⟨.pushTrue, 0, ⟨300, 7⟩⟩⟩ (by simp) (by simp) (by simp)
      (by simp [Position.absent])
  · exact hown ⟨3, ⟨.ret, 0, ⟨2, 900⟩⟩⟩ (by simp) (by simp)

end Starlark
