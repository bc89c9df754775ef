import Pc8086.Proofs.Cpu.Encoding
import Pc8086.Proofs.Cpu.Relocation
import Pc8086.Proofs.Cpu.WordRegisters

namespace Pc8086.Cpu

open Exec

def OperandSize.bit : OperandSize → UInt8
  | .byte => 0
  | .current => 1

def Alu.Operation.code : Alu.Operation → UInt8
  | .add => 0
  | .or => 1
  | .adc => 2
  | .sbb => 3
  | .and => 4
  | .sub => 5
  | .xor => 6
  | .compare => 7

/-- The addressing byte with a register as its operand. -/
def registerByte (code : UInt8) (r : Reg) : UInt8 :=
  ModRM.toByte ⟨3, code, r.code⟩

/-- Addressing bytes with the same operand and the same shift; the left shift has two codes. -/
structure SameShift (x y : ModRM) : Prop where
  mode : y.mode = x.mode
  rm : y.rm = x.rm
  code : y.reg = x.reg ∨ x.reg = 4 ∧ y.reg = 6 ∨ x.reg = 6 ∧ y.reg = 4

/-- The opcode for a shift of bytes, the bytes at its end and the count that they stand for. -/
inductive ShiftCount (c : Cpu) : UInt8 → List UInt8 → UInt8 → Prop where
  | one : ShiftCount c 0xD0 [] 1
  | cl : ShiftCount c 0xD2 [] (c.registers.lowByte .cx)
  | immediate (n : UInt8) : ShiftCount c 0xC0 [n] n

/-- Two encodings of one operation on registers and memory. -/
inductive SameOperation (c : Cpu) : List UInt8 → List UInt8 → Prop where
  /-- Either register can be the operand of the addressing byte. -/
  | arithmetic (op : Alu.Operation) (size : OperandSize) (a b : Reg) :
    SameOperation c [op.code <<< 3 ||| size.bit, registerByte b.code a]
      [op.code <<< 3 ||| 2 ||| size.bit, registerByte a.code b]
  /-- There are opcodes for the accumulator alone. -/
  | accumulator (op : Alu.Operation) (size : OperandSize) {number : List UInt8}
    (h : number.length = (size.width c.prefixes).bytes) :
    SameOperation c ((op.code <<< 3 ||| 4 ||| size.bit) :: number)
      ([0x80 ||| size.bit, registerByte op.code .ax] ++ number)
  | double {x : UInt8} {place : List UInt8} (h : place.length = (ModRM.ofByte x).trailing)
    (v : UInt8) : SameOperation c ([0x80, x] ++ place ++ [v]) ([0x82, x] ++ place ++ [v])
  /-- A number may be one byte whose sign is copied upwards. -/
  | signed {x : UInt8} {place : List UInt8} (h : place.length = (ModRM.ofByte x).trailing)
    (v : UInt8) :
    SameOperation c ([0x81, x] ++ place ++ extended c.prefixes.operandWidth v)
      ([0x83, x] ++ place ++ [v])
  | increment (r : Reg) : SameOperation c [0x40 + r.code] [0xFF, registerByte 0 r]
  | decrement (r : Reg) : SameOperation c [0x48 + r.code] [0xFF, registerByte 1 r]
  | move (size : OperandSize) (a b : Reg) :
    SameOperation c [0x88 ||| size.bit, registerByte b.code a]
      [0x8A ||| size.bit, registerByte a.code b]
  /-- The code in the addressing byte is not looked at. -/
  | loadByte (r : Reg) {code : UInt8} (h : code < 8) (v : UInt8) :
    SameOperation c [0xB0 + r.code, v] [0xC6, registerByte code r, v]
  | load (r : Reg) {code : UInt8} (h : code < 8) {number : List UInt8}
    (hn : number.length = c.prefixes.operandWidth.bytes) :
    SameOperation c ((0xB8 + r.code) :: number) ([0xC7, registerByte code r] ++ number)
  | loadDirect (size : OperandSize) (low high : UInt8) :
    SameOperation c [0xA0 ||| size.bit, low, high] [0x8A ||| size.bit, 0x06, low, high]
  | storeDirect (size : OperandSize) (low high : UInt8) :
    SameOperation c [0xA2 ||| size.bit, low, high] [0x88 ||| size.bit, 0x06, low, high]
  /-- With the accumulator itself it is the instruction that does nothing. -/
  | exchange (r : Reg) : SameOperation c [0x90 + r.code] [0x87, registerByte r.code .ax]
  | exchanged (r : Reg) : SameOperation c [0x90 + r.code] [0x87, registerByte 0 r]
  | test (size : OperandSize) {number : List UInt8}
    (h : number.length = (size.width c.prefixes).bytes) :
    SameOperation c ((0xA8 ||| size.bit) :: number)
      ([0xF6 ||| size.bit, registerByte 0 .ax] ++ number)
  | shift (size : OperandSize) {x y : UInt8} (hxy : SameShift (ModRM.ofByte x) (ModRM.ofByte y))
    {place : List UInt8} (h : place.length = (ModRM.ofByte x).trailing) {b b' : UInt8}
    {rest rest' : List UInt8} {n : UInt8} (hb : ShiftCount c b rest n)
    (hb' : ShiftCount c b' rest' n) :
    SameOperation c ([b ||| size.bit, x] ++ place ++ rest) ([b' ||| size.bit, y] ++ place ++ rest')
  | push (v : UInt8) :
    SameOperation c (0x68 :: extended c.prefixes.operandWidth v) [0x6A, v]

section Codes

theorem code_lt (r : Reg) : r.code < 8 := by
  cases r <;> decide

theorem operation_code_lt (op : Alu.Operation) : op.code < 8 := by
  cases op <;> decide

theorem ofCode_operation_code (op : Alu.Operation) : Alu.Operation.ofCode op.code = op := by
  cases op <;> rfl

theorem ofByte_registerByte {code : UInt8} (h : code < 8) (r : Reg) :
    ModRM.ofByte (registerByte code r) = ⟨3, code, r.code⟩ := by
  refine byte_of_below (n := 8) (P := fun code => ModRM.ofByte (registerByte code r) =
    ⟨3, code, r.code⟩) ?_ (UInt8.lt_iff_toNat_lt.1 h)
  cases r <;> decide

end Codes

section Encodings

variable {c : Cpu} {β : Type} [Bus β]

theorem trailing_registerByte {code : UInt8} (h : code < 8) (r : Reg) :
    ([] : List UInt8).length = (ModRM.ofByte (registerByte code r)).trailing := by
  rw [ofByte_registerByte h]
  rfl

theorem place_registerByte {code : UInt8} (h : code < 8) (r : Reg) (c : Cpu) :
    (ModRM.ofByte (registerByte code r)).place c [] = .register r := by
  rw [ofByte_registerByte h, ModRM.place_of_register rfl, Reg.ofCode_code]

theorem reads_registerByte {code : UInt8} (h : code < 8) (r : Reg) :
    Reads c [registerByte code r] (decodeModRM : Exec β (ModRM × Place))
      (⟨3, code, r.code⟩, .register r) := by
  have hreads := reads_decodeModRM (β := β) (c := c) (trailing_registerByte h r)
  rwa [place_registerByte h, ofByte_registerByte h] at hreads

theorem encodes_arithmetic (op : Alu.Operation) (size : OperandSize) (a b : Reg) :
    Encodes c [op.code <<< 3 ||| size.bit, registerByte b.code a]
      (.arithmetic op (size.width c.prefixes) (.register a) (.register b)) := by
  have h : Encodes c [op.code <<< 3 ||| size.bit, registerByte b.code a]
      (.arithmetic op (size.width c.prefixes) (.register a) (.register (Reg.ofCode b.code))) :=
    encodes_of_isPlain (.arithmetic op .memoryRegister size) (by cases op <;> cases size <;> rfl)
      rfl fun _ _ => .look (reads_widthOf size)
        (.last (reads_registerByte (code_lt b) a) (reads_pure _))
  rwa [Reg.ofCode_code] at h

theorem encodes_arithmeticReversed (op : Alu.Operation) (size : OperandSize) (a b : Reg) :
    Encodes c [op.code <<< 3 ||| 2 ||| size.bit, registerByte a.code b]
      (.arithmetic op (size.width c.prefixes) (.register a) (.register b)) := by
  have h : Encodes c [op.code <<< 3 ||| 2 ||| size.bit, registerByte a.code b]
      (.arithmetic op (size.width c.prefixes) (.register (Reg.ofCode a.code)) (.register b)) :=
    encodes_of_isPlain (.arithmetic op .registerMemory size) (by cases op <;> cases size <;> rfl)
      rfl fun _ _ => .look (reads_widthOf size)
        (.last (reads_registerByte (code_lt a) b) (reads_pure _))
  rwa [Reg.ofCode_code] at h

theorem encodes_accumulator (op : Alu.Operation) (size : OperandSize) {number : List UInt8}
    (h : number.length = (size.width c.prefixes).bytes) :
    Encodes c ((op.code <<< 3 ||| 4 ||| size.bit) :: number)
      (.arithmetic op (size.width c.prefixes) (.register .ax)
        (.immediate (numberOf (size.width c.prefixes) number))) :=
  encodes_of_isPlain (.arithmetic op .accumulatorImmediate size)
    (by cases op <;> cases size <;> rfl) rfl fun _ _ => .look (reads_widthOf size)
      (.last (reads_fetch h) (reads_pure _))

theorem encodes_arithmeticImmediate {form : ImmediateForm} {size : OperandSize} {b x : UInt8}
    {place number : List UInt8} {v : UInt32}
    (hb : Opcode.ofByte b = .arithmeticImmediate form size)
    (h : place.length = (ModRM.ofByte x).trailing)
    (hv : ∀ (β : Type) [Bus β],
      Reads c number (fetchImmediate form (size.width c.prefixes) : Exec β UInt32) v) :
    Encodes c ([b, x] ++ place ++ number)
      (.arithmetic (Alu.Operation.ofCode (ModRM.ofByte x).reg) (size.width c.prefixes)
        ((ModRM.ofByte x).place c place) (.immediate v)) :=
  encodes_of_isPlain (.arithmeticImmediate form size) hb rfl fun β _ =>
    .look (reads_widthOf size) (.bind (reads_decodeModRM h) (.last (hv β) (reads_pure _)))

theorem encodes_accumulatorGroup (op : Alu.Operation) (size : OperandSize) {number : List UInt8}
    (h : number.length = (size.width c.prefixes).bytes) :
    Encodes c ([0x80 ||| size.bit, registerByte op.code .ax] ++ number)
      (.arithmetic op (size.width c.prefixes) (.register .ax)
        (.immediate (numberOf (size.width c.prefixes) number))) := by
  have hcode := operation_code_lt op
  have hform : ∃ form, Opcode.ofByte (0x80 ||| size.bit) = .arithmeticImmediate form size ∧
      ∀ (β : Type) [Bus β], Reads c number
        (fetchImmediate form (size.width c.prefixes) : Exec β UInt32)
        (numberOf (size.width c.prefixes) number) := by
    cases size with
    | byte => exact ⟨.byte, rfl, fun _ _ => reads_fetch h⟩
    | current => exact ⟨.full, rfl, fun _ _ => reads_fetch h⟩
  obtain ⟨form, hb, hv⟩ := hform
  have he := encodes_arithmeticImmediate hb (trailing_registerByte hcode .ax) hv
  rwa [place_registerByte hcode, ofByte_registerByte hcode, ofCode_operation_code] at he

theorem encodes_increment (r : Reg) :
    Encodes c [0x40 + r.code] (.unary .increment c.prefixes.operandWidth (.register r)) :=
  encodes_of_isPlain (.increment r) (by cases r <;> rfl) rfl fun _ _ =>
    .look (reads_widthOf .current) (reads_pure _)

theorem encodes_decrement (r : Reg) :
    Encodes c [0x48 + r.code] (.unary .decrement c.prefixes.operandWidth (.register r)) :=
  encodes_of_isPlain (.decrement r) (by cases r <;> rfl) rfl fun _ _ =>
    .look (reads_widthOf .current) (reads_pure _)

theorem encodes_indirect {code : UInt8} (h : code < 8) (r : Reg) :
    Encodes c [0xFF, registerByte code r]
      (decodeIndirect c.prefixes.operandWidth code (.register r)
        ([0xFF] ++ [ModRM.toByte ⟨3, code, r.code⟩])) :=
  encodes_of_isPlain .indirect rfl rfl fun _ _ =>
    .look (reads_widthOf .current) (.last (reads_registerByte h r) (reads_pure _))

theorem encodes_store (size : OperandSize) (a b : Reg) :
    Encodes c [0x88 ||| size.bit, registerByte b.code a]
      (.move (size.width c.prefixes) (.register a) (.register b)) := by
  have h : Encodes c [0x88 ||| size.bit, registerByte b.code a]
      (.move (size.width c.prefixes) (.register a) (.register (Reg.ofCode b.code))) :=
    encodes_of_isPlain (.store size) (by cases size <;> rfl) rfl fun _ _ =>
      .look (reads_widthOf size) (.last (reads_registerByte (code_lt b) a) (reads_pure _))
  rwa [Reg.ofCode_code] at h

theorem encodes_load (size : OperandSize) (a b : Reg) :
    Encodes c [0x8A ||| size.bit, registerByte a.code b]
      (.move (size.width c.prefixes) (.register a) (.register b)) := by
  have h : Encodes c [0x8A ||| size.bit, registerByte a.code b]
      (.move (size.width c.prefixes) (.register (Reg.ofCode a.code)) (.register b)) :=
    encodes_of_isPlain (.load size) (by cases size <;> rfl) rfl fun _ _ =>
      .look (reads_widthOf size) (.last (reads_registerByte (code_lt a) b) (reads_pure _))
  rwa [Reg.ofCode_code] at h

theorem encodes_loadImmediate (r : Reg) {b : UInt8} {size : OperandSize} {number : List UInt8}
    (hb : Opcode.ofByte b = .loadImmediate r size)
    (h : number.length = (size.width c.prefixes).bytes) :
    Encodes c (b :: number)
      (.move (size.width c.prefixes) (.register r)
        (.immediate (numberOf (size.width c.prefixes) number))) :=
  encodes_of_isPlain (.loadImmediate r size) hb rfl fun _ _ =>
    .look (reads_widthOf size) (.last (reads_fetch h) (reads_pure _))

theorem encodes_storeImmediate (r : Reg) {code b : UInt8} (hcode : code < 8) {size : OperandSize}
    {number : List UInt8} (hb : Opcode.ofByte b = .storeImmediate size)
    (h : number.length = (size.width c.prefixes).bytes) :
    Encodes c ([b, registerByte code r] ++ number)
      (.move (size.width c.prefixes) (.register r)
        (.immediate (numberOf (size.width c.prefixes) number))) :=
  encodes_of_isPlain (.storeImmediate size) hb rfl fun _ _ =>
    .look (reads_widthOf size)
      (.bind (reads_registerByte hcode r) (.last (reads_fetch h) (reads_pure _)))

theorem reads_directLocation (low high : UInt8) :
    Reads c [low, high] (directLocation : Exec β Location)
      ⟨c.prefixes.segmentOr .ds, wordOf low high⟩ :=
  .last (reads_fetchWord low high) (reads_view
    (f := fun c => Location.mk (c.prefixes.segmentOr .ds) (wordOf low high)) fun _ _ => rfl)

/-- The addressing byte for a place in memory that is given by its offset. -/
theorem reads_directByte (low high : UInt8) :
    Reads c [0x06, low, high] (decodeModRM : Exec β (ModRM × Place))
      (⟨0, 0, 6⟩, .memory ⟨c.prefixes.segmentOr .ds, wordOf low high⟩) := by
  have h : [low, high].length = (ModRM.ofByte 0x06).trailing := rfl
  exact reads_decodeModRM h

theorem encodes_loadDirect (size : OperandSize) (low high : UInt8) :
    Encodes c [0xA0 ||| size.bit, low, high]
      (.move (size.width c.prefixes) (.register .ax)
        (.place (.memory ⟨c.prefixes.segmentOr .ds, wordOf low high⟩))) :=
  encodes_of_isPlain (.loadDirect size) (by cases size <;> rfl) rfl fun _ _ =>
    .look (reads_widthOf size) (.last (reads_directLocation low high) (reads_pure _))

theorem encodes_storeDirect (size : OperandSize) (low high : UInt8) :
    Encodes c [0xA2 ||| size.bit, low, high]
      (.move (size.width c.prefixes) (.memory ⟨c.prefixes.segmentOr .ds, wordOf low high⟩)
        (.register .ax)) :=
  encodes_of_isPlain (.storeDirect size) (by cases size <;> rfl) rfl fun _ _ =>
    .look (reads_widthOf size) (.last (reads_directLocation low high) (reads_pure _))

theorem encodes_loadPlace (size : OperandSize) (low high : UInt8) :
    Encodes c [0x8A ||| size.bit, 0x06, low, high]
      (.move (size.width c.prefixes) (.register .ax)
        (.place (.memory ⟨c.prefixes.segmentOr .ds, wordOf low high⟩))) :=
  encodes_of_isPlain (.load size) (by cases size <;> rfl) rfl fun _ _ =>
    .look (reads_widthOf size) (.last (reads_directByte low high) (reads_pure _))

theorem encodes_storePlace (size : OperandSize) (low high : UInt8) :
    Encodes c [0x88 ||| size.bit, 0x06, low, high]
      (.move (size.width c.prefixes) (.memory ⟨c.prefixes.segmentOr .ds, wordOf low high⟩)
        (.register .ax)) :=
  encodes_of_isPlain (.store size) (by cases size <;> rfl) rfl fun _ _ =>
    .look (reads_widthOf size) (.last (reads_directByte low high) (reads_pure _))

theorem encodes_exchangeAccumulator {r : Reg} (h : r ≠ .ax) :
    Encodes c [0x90 + r.code] (.exchange c.prefixes.operandWidth (.register .ax) r) :=
  encodes_of_isPlain (.exchangeAccumulator r) (by cases r <;> first | rfl | exact absurd rfl h) rfl
    fun _ _ => .look (reads_widthOf .current) (reads_pure _)

theorem encodes_noOperation : Encodes c [0x90] .skip :=
  encodes_of_isPlain .noOperation rfl rfl fun _ _ => reads_pure _

theorem encodes_exchange (a b : Reg) :
    Encodes c [0x87, registerByte b.code a]
      (.exchange c.prefixes.operandWidth (.register a) b) := by
  have h : Encodes c [0x87, registerByte b.code a]
      (.exchange c.prefixes.operandWidth (.register a) (Reg.ofCode b.code)) :=
    encodes_of_isPlain (.exchange .current) rfl rfl fun _ _ =>
      .look (reads_widthOf .current) (.last (reads_registerByte (code_lt b) a) (reads_pure _))
  rwa [Reg.ofCode_code] at h

theorem encodes_testImmediate (size : OperandSize) {number : List UInt8}
    (h : number.length = (size.width c.prefixes).bytes) :
    Encodes c ((0xA8 ||| size.bit) :: number)
      (.test (size.width c.prefixes) (.register .ax)
        (.immediate (numberOf (size.width c.prefixes) number))) :=
  encodes_of_isPlain (.testImmediate size) (by cases size <;> rfl) rfl fun _ _ =>
    .look (reads_widthOf size) (.last (reads_fetch h) (reads_pure _))

theorem encodes_testGroup (size : OperandSize) {number : List UInt8}
    (h : number.length = (size.width c.prefixes).bytes) :
    Encodes c ([0xF6 ||| size.bit, registerByte 0 .ax] ++ number)
      (.test (size.width c.prefixes) (.register .ax)
        (.immediate (numberOf (size.width c.prefixes) number))) :=
  encodes_of_isPlain (.unary size) (by cases size <;> rfl) rfl fun _ _ =>
    .look (reads_widthOf size)
      (.bind (reads_registerByte (by decide) .ax) (.last (reads_fetch h) (reads_pure _)))

theorem encodes_shift (size : OperandSize) {x b n : UInt8} {place rest : List UInt8}
    (h : place.length = (ModRM.ofByte x).trailing) (hb : ShiftCount c b rest n) :
    Encodes c ([b ||| size.bit, x] ++ place ++ rest)
      (.shift (Shift.ofCode (ModRM.ofByte x).reg) (size.width c.prefixes)
        ((ModRM.ofByte x).place c place) n) := by
  cases hb with
  | one =>
    exact encodes_of_isPlain (.shift .one size) (by cases size <;> rfl) rfl fun _ _ =>
      .look (reads_widthOf size)
        (.bind (reads_decodeModRM h) (.look (reads_pure 1) (reads_pure _)))
  | cl =>
    exact encodes_of_isPlain (.shift .cl size) (by cases size <;> rfl) rfl fun _ _ =>
      .look (reads_widthOf size)
        (.bind (reads_decodeModRM h) (.look
          (reads_view (f := fun c => c.registers.lowByte .cx) fun _ _ => rfl) (reads_pure _)))
  | immediate n =>
    exact encodes_of_isPlain (.shift .immediate size) (by cases size <;> rfl) rfl fun _ _ =>
      .look (reads_widthOf size)
        (.bind (reads_decodeModRM h) (.last (reads_fetchByte n) (reads_pure _)))

theorem encodes_push {number : List UInt8} (h : number.length = c.prefixes.operandWidth.bytes) :
    Encodes c (0x68 :: number)
      (.push c.prefixes.operandWidth (.immediate (numberOf c.prefixes.operandWidth number))) :=
  encodes_of_isPlain (.pushImmediate .full) rfl rfl fun _ _ =>
    .look (reads_widthOf .current) (.last (reads_fetch h) (reads_pure _))

theorem encodes_pushSigned (v : UInt8) :
    Encodes c [0x6A, v]
      (.push c.prefixes.operandWidth (.immediate (Width.byte.signExtend v.toUInt32))) :=
  encodes_of_isPlain (.pushImmediate .signedByte) rfl rfl fun _ _ =>
    .look (reads_widthOf .current) (.last (reads_fetchSignedByte v) (reads_pure _))

end Encodings

section Effects

variable {β : Type} [Bus β]

theorem truncate_truncate (w : Width) (v : UInt32) : w.truncate (w.truncate v) = w.truncate v := by
  unfold Width.truncate
  rw [UInt32.and_assoc, UInt32.and_self]

/-- The sign is copied up to the width in either case. -/
theorem readSource_extended (w : Width) (v : UInt8) :
    (readSource w (.immediate (numberOf w (extended w v))) : Exec β UInt32) =
      readSource w (.immediate (Width.byte.signExtend v.toUInt32)) := by
  change pure (w.truncate (numberOf w (extended w v))) = pure (w.truncate _)
  rw [numberOf_extended, truncate_truncate]

theorem write_comm {w : Width} (hw : w ≠ .byte) {a b : Reg} (h : a ≠ b) (r : Registers)
    (u v : UInt32) : (r.write w a u).write w b v = (r.write w b v).write w a u := by
  cases w with
  | byte => exact absurd rfl hw
  | word => cases a <;> cases b <;> first | rfl | exact absurd rfl h
  | dword => cases a <;> cases b <;> first | rfl | exact absurd rfl h

theorem write_read {w : Width} (hw : w ≠ .byte) (r : Registers) (a : Reg) :
    r.write w a (r.read w a) = r := by
  cases w with
  | byte => exact absurd rfl hw
  | word =>
    change r.setWord a (r.word a).toUInt32.toUInt16 = r
    rw [UInt16.toUInt16_toUInt32, Registers.setWord_self]
  | dword => exact r.setDword_self a

theorem operandWidth_ne_byte (p : Prefixes) : p.operandWidth ≠ .byte := by
  unfold Prefixes.operandWidth
  split <;> exact nofun

theorem run_exchange (w : Width) (a b : Reg) :
    (execute (.exchange w (.register a) b) : Exec β Unit) =
      modifyRegisters fun r => (r.write w a (r.read w b)).write w b (r.read w a) := rfl

theorem exchange_comm {w : Width} (hw : w ≠ .byte) (a b : Reg) :
    (execute (.exchange w (.register a) b) : Exec β Unit) =
      execute (.exchange w (.register b) a) := by
  by_cases h : a = b
  · rw [h]
  · rw [run_exchange, run_exchange]
    congr 1
    funext r
    exact write_comm hw h r _ _

/-- Nothing comes of the exchange of a register with itself. -/
theorem exchange_self {w : Width} (hw : w ≠ .byte) (a : Reg) :
    (execute .skip : Exec β Unit) = execute (.exchange w (.register a) a) := by
  have hkept : (fun r : Registers => (r.write w a (r.read w a)).write w a (r.read w a)) = id := by
    funext r
    rw [write_read hw, write_read hw]
    rfl
  rw [run_exchange, hkept]
  rfl

theorem shift_congr {x y : ModRM} (h : SameShift x y) (w : Width) (p : Place) (n : UInt8) :
    (execute (.shift (Shift.ofCode x.reg) w p n) : Exec β Unit) =
      execute (.shift (Shift.ofCode y.reg) w p n) := by
  have hsal : (execute (.shift .shl w p n) : Exec β Unit) = execute (.shift .sal w p n) := rfl
  rcases h.code with hcode | ⟨hx, hy⟩ | ⟨hx, hy⟩
  · rw [hcode]
  · rw [hx, hy]
    exact hsal
  · rw [hx, hy]
    exact hsal.symm

end Effects

/-- The encodings are instructions that do the same, and it does not matter where they stand. -/
inductive Twins (c : Cpu) (e e' : List UInt8) : Prop where
  | intro {i i' : Instruction} (first : Encodes c e i) (second : Encodes c e' i')
    (same : ∀ (β : Type) [Bus β], (execute i : Exec β Unit) = execute i')
    (relocatable : ∀ (β : Type) [Bus β], Relocatable (execute i : Exec β Unit))

section Twins

variable {c : Cpu} {e e' : List UInt8}

theorem Twins.symm (h : Twins c e e') : Twins c e' e := by
  obtain ⟨first, second, same, relocatable⟩ := h
  refine ⟨second, first, fun β _ => (same β).symm, fun β _ => ?_⟩
  rw [← same β]
  exact relocatable β

theorem twins_of_same {i : Instruction} (h : Encodes c e i) (h' : Encodes c e' i)
    (hi : ∀ (β : Type) [Bus β], Relocatable (execute i : Exec β Unit)) : Twins c e e' :=
  ⟨h, h', fun _ _ => rfl, hi⟩

/-- The short exchange is like any other one. With the accumulator itself it does nothing. -/
theorem twins_exchange (r : Reg) {i : Instruction} (h : Encodes c e i)
    (hi : ∀ (β : Type) [Bus β],
      (execute (.exchange c.prefixes.operandWidth (.register .ax) r) : Exec β Unit) = execute i) :
    Twins c [0x90 + r.code] e := by
  by_cases hr : r = .ax
  · subst hr
    refine ⟨encodes_noOperation, h, fun β _ => ?_, fun _ _ => relocatable_pure ()⟩
    rw [exchange_self (operandWidth_ne_byte c.prefixes), hi β]
  · exact ⟨encodes_exchangeAccumulator hr, h, hi, fun _ _ => relocatable_exchange _ _ _⟩

theorem SameOperation.twins (h : SameOperation c e e') : Twins c e e' := by
  cases h with
  | arithmetic op size a b =>
    exact twins_of_same (encodes_arithmetic op size a b) (encodes_arithmeticReversed op size a b)
      fun _ _ => relocatable_arithmetic _ _ _ _
  | accumulator op size h =>
    exact twins_of_same (encodes_accumulator op size h) (encodes_accumulatorGroup op size h)
      fun _ _ => relocatable_arithmetic _ _ _ _
  | double h v =>
    have hb : Opcode.ofByte 0x80 = .arithmeticImmediate .byte .byte := rfl
    have hb' : Opcode.ofByte 0x82 = .arithmeticImmediate .byte .byte := rfl
    exact twins_of_same
      (encodes_arithmeticImmediate hb h fun _ _ => (reads_fetchByte v).map UInt8.toUInt32)
      (encodes_arithmeticImmediate hb' h fun _ _ => (reads_fetchByte v).map UInt8.toUInt32)
      fun _ _ => relocatable_arithmetic _ _ _ _
  | signed h v =>
    have hb : Opcode.ofByte 0x81 = .arithmeticImmediate .full .current := rfl
    have hb' : Opcode.ofByte 0x83 = .arithmeticImmediate .signedByte .current := rfl
    refine ⟨encodes_arithmeticImmediate hb h fun _ _ => reads_fetch (length_extended _ v),
      encodes_arithmeticImmediate hb' h fun _ _ => reads_fetchSignedByte v, fun β _ => ?_,
      fun _ _ => relocatable_arithmetic _ _ _ _⟩
    -- the numbers may differ above the width, where the source is cut off
    unfold execute
    simp only [OperandSize.width, readSource_extended]
  | increment r =>
    exact twins_of_same (encodes_increment r) (encodes_indirect (by decide) r)
      fun _ _ => relocatable_unary _ _ _
  | decrement r =>
    exact twins_of_same (encodes_decrement r) (encodes_indirect (by decide) r)
      fun _ _ => relocatable_unary _ _ _
  | move size a b =>
    exact twins_of_same (encodes_store size a b) (encodes_load size a b)
      fun _ _ => relocatable_move _ _ _
  | loadByte r h v =>
    exact twins_of_same (encodes_loadImmediate r (by cases r <;> rfl) rfl)
      (encodes_storeImmediate r h rfl rfl) fun _ _ => relocatable_move _ _ _
  | @load r code h number hn =>
    have hn : number.length = (OperandSize.current.width c.prefixes).bytes := hn
    exact twins_of_same (encodes_loadImmediate r (by cases r <;> rfl) hn)
      (encodes_storeImmediate r h rfl hn) fun _ _ => relocatable_move _ _ _
  | loadDirect size low high =>
    exact twins_of_same (encodes_loadDirect size low high) (encodes_loadPlace size low high)
      fun _ _ => relocatable_move _ _ _
  | storeDirect size low high =>
    exact twins_of_same (encodes_storeDirect size low high) (encodes_storePlace size low high)
      fun _ _ => relocatable_move _ _ _
  | exchange r => exact twins_exchange r (encodes_exchange .ax r) fun _ _ => rfl
  | exchanged r =>
    exact twins_exchange r (encodes_exchange r .ax) fun _ _ =>
      exchange_comm (operandWidth_ne_byte c.prefixes) .ax r
  | test size h =>
    exact twins_of_same (encodes_testImmediate size h) (encodes_testGroup size h)
      fun _ _ => relocatable_test _ _ _
  | @shift size x y hxy place h b b' rest rest' n hb hb' =>
    -- the codes of the shift aside, the addressing bytes say the same
    have hplace : (ModRM.ofByte y).place c place = (ModRM.ofByte x).place c place := by
      unfold ModRM.place ModRM.isDirect
      rw [hxy.mode, hxy.rm]
    have htrailing : place.length = (ModRM.ofByte y).trailing := by
      unfold ModRM.trailing ModRM.isDirect
      rw [hxy.mode, hxy.rm]
      exact h
    have hy := encodes_shift size htrailing hb'
    rw [hplace] at hy
    exact ⟨encodes_shift size h hb, hy, fun _ _ => shift_congr hxy _ _ _,
      fun _ _ => relocatable_shift _ _ _ _⟩
  | push v =>
    refine ⟨encodes_push (length_extended _ v), encodes_pushSigned v, fun β _ => ?_,
      fun _ _ => relocatable_pushSource _ _⟩
    simp only [execute, readSource_extended]

end Twins

/-- Nothing comes of the instruction but a jump, which may be by nothing. -/
def Jumps (c : Cpu) (i : Instruction) (distance : UInt16) : Prop :=
  ∀ (β : Type) [Bus β] (s : System β), SameButIp c s.cpu →
    execute i s = .ok () (movedTo (s.cpu.registers.ip + distance) s)

/-- Behind the encoding execution goes on at `ip`, and nothing else comes of it. -/
inductive Hops (c : Cpu) (e : List UInt8) (ip : UInt16) : Prop where
  | intro {i : Instruction} {distance : UInt16} (h : Encodes c e i) (hi : Jumps c i distance)
    (hip : c.registers.ip + UInt16.ofNat e.length + distance = ip)

section Jumps

variable {c : Cpu} {code : UInt8}

theorem jumps_relative (c : Cpu) (distance : UInt16) :
    Jumps c (.jumpRelative distance) distance :=
  fun _ _ _ _ => rfl

theorem run_jumpIf {β : Type} [Bus β] (code : UInt8) (distance : UInt16) (s : System β) :
    execute (.jumpIf code distance) s =
      (if condition code s.cpu.registers.flags then jumpBy distance else pure ()) s := rfl

theorem jumps_if (h : condition code c.registers.flags = true) (distance : UInt16) :
    Jumps c (.jumpIf code distance) distance := by
  intro β _ s hs
  rw [run_jumpIf, hs, if_pos h]
  rfl

theorem jumps_not (h : ¬condition code c.registers.flags = true) (distance : UInt16) :
    Jumps c (.jumpIf code distance) 0 := by
  intro β _ s hs
  rw [run_jumpIf, hs, if_neg h, UInt16.add_zero]
  rfl

theorem encodes_jumpShort (d : UInt8) : Encodes c [0xEB, d] (.jumpRelative (distanceOf d)) :=
  encodes_of_isPlain .jumpShort rfl rfl fun _ _ => .last (reads_fetchShortDistance d) (reads_pure _)

theorem encodes_jumpNear (low high : UInt8) :
    Encodes c [0xE9, low, high] (.jumpRelative (wordOf low high)) :=
  encodes_of_isPlain .jumpNear rfl rfl fun _ _ => .last (reads_fetchWord low high) (reads_pure _)

theorem ofByte_jumpIf (h : code < 16) : Opcode.ofByte (0x70 + code) = .jumpIf code := by
  obtain ⟨hbelow, habove, hlow⟩ := byte_of_below (n := 16) (P := fun code =>
    ¬0x70 + code < 0x70 ∧ 0x70 + code < 0x80 ∧ (0x70 + code) &&& 0x0F = code)
    (by decide) (UInt8.lt_iff_toNat_lt.1 h)
  have hnot : ∀ limit : UInt8, limit ≤ 0x70 → ¬0x70 + code < limit :=
    fun limit hl hlt => hbelow (UInt8.lt_of_lt_of_le hlt hl)
  rw [Opcode.ofByte, if_neg (hnot 0x40 (by decide)), if_neg (hnot 0x48 (by decide)),
    if_neg (hnot 0x50 (by decide)), if_neg (hnot 0x58 (by decide)), if_neg (hnot 0x60 (by decide)),
    if_neg hbelow, if_pos habove, hlow]

theorem ofEscaped_jumpIfNear (h : code < 16) :
    Opcode.ofEscaped (0x80 + code) = .jumpIfNear code := by
  obtain ⟨hrow, hlow⟩ := byte_of_below (n := 16) (P := fun code =>
    ((0x80 + code) &&& 0xF0 == 0x80) = true ∧ (0x80 + code) &&& 0x0F = code)
    (by decide) (UInt8.lt_iff_toNat_lt.1 h)
  unfold Opcode.ofEscaped
  rw [if_pos hrow, hlow]

theorem encodes_jumpIf (h : code < 16) (d : UInt8) :
    Encodes c [0x70 + code, d] (.jumpIf code (distanceOf d)) :=
  encodes_of_isPlain (.jumpIf code) (ofByte_jumpIf h) rfl fun _ _ =>
    .last (reads_fetchShortDistance d) (reads_pure _)

theorem encodes_jumpIfNear (h : code < 16) (low high : UInt8) :
    Encodes c [0x0F, 0x80 + code, low, high] (.jumpIf code (wordOf low high)) := by
  refine ⟨0x0F, _, rfl, by decide, nofun, fun β _ => ?_⟩
  have hword : Reads c [low, high]
      (decode [0x0F, 0x80 + code] (Opcode.ofEscaped (0x80 + code)) : Exec β Instruction)
      (.jumpIf code (wordOf low high)) := by
    rw [ofEscaped_jumpIfNear h]
    exact .last (reads_fetchWord low high) (reads_pure _)
  exact (reads_fetchByte (0x80 + code)).bind hword

end Jumps

/-- The product of an operand and a number. Behind `front` the operand at `p` is read, and only then
is `number` fetched, of which `v` is what counts. -/
inductive Multiplies (c : Cpu) (w : Width) (target : Reg) (p : Place) (v : UInt32) :
    List UInt8 → List UInt8 → Prop where
  | intro {b : UInt8} {front number : List UInt8} {v' : UInt32} (hb : ¬IsPrefix b)
    (hs : ∀ op size, Opcode.ofByte b ≠ .string op size) (hv : w.truncate v' = v)
    (h : ∀ (β : Type) [Bus β], ∃ x : Exec β UInt32, Reads c number x v' ∧
      ∀ s t : System β, SameButIp c s.cpu → Supplies s front t →
        (decodeOpcode b >>= execute) s =
          (do
            let a ← readPlace w p
            let v ← x
            modifyRegisters fun r =>
              r.multiplyTruncated w target (w.truncate a) (w.truncate v)) t) :
    Multiplies c w target p v (b :: front) number

section Multiplication

variable {c : Cpu}

theorem multiplies_immediate {form : ImmediateForm} {b x : UInt8} {place number : List UInt8}
    {v' : UInt32} (hb : Opcode.ofByte b = .multiplyImmediate form)
    (h : place.length = (ModRM.ofByte x).trailing)
    (hv : ∀ (β : Type) [Bus β],
      Reads c number (fetchImmediate form c.prefixes.operandWidth : Exec β UInt32) v') :
    Multiplies c c.prefixes.operandWidth (Reg.ofCode (ModRM.ofByte x).reg)
      ((ModRM.ofByte x).place c place) (c.prefixes.operandWidth.truncate v') ([b, x] ++ place)
      number := by
  change Multiplies c _ _ _ _ (b :: x :: place) number
  refine .intro (not_isPrefix_of_isPlain (by rw [hb]; rfl)) ?_ rfl ?_
  · intro op size hs
    rw [hb] at hs
    cases hs
  · intro β _
    refine ⟨fetchImmediate form c.prefixes.operandWidth, hv β, fun s t hs ht => ?_⟩
    have hd : (decodeOpcode b : Exec β Instruction) = do
        let w ← currentWidth
        let operand ← decodeModRM
        let a ← readPlace w operand.2
        let v ← fetchImmediate form w
        return .multiplyTruncated w (Reg.ofCode operand.1.reg) (.immediate a) (.immediate v) := by
      unfold decodeOpcode
      rw [hb]
      rfl
    rw [hd]
    simp only [bind_assoc, pure_bind]
    have hw : currentWidth s = .ok c.prefixes.operandWidth s := reads_widthOf .current s s hs rfl
    rw [bind_ok _ hw, bind_ok _ (reads_decodeModRM h s t hs ht)]
    rfl

end Multiplication

/-- Two encodings of an instruction and, if that is a jump which is taken, where it goes. The
processor has come to the opcode. -/
inductive Alternate (c : Cpu) : List UInt8 → List UInt8 → Option UInt16 → Prop where
  | operation {e e' : List UInt8} (h : SameOperation c e e') : Alternate c e e' none
  | multiply {x : UInt8} {place : List UInt8} (h : place.length = (ModRM.ofByte x).trailing)
    (v : UInt8) :
    Alternate c ([0x69, x] ++ place ++ extended c.prefixes.operandWidth v)
      ([0x6B, x] ++ place ++ [v]) none
  | jump {d low high : UInt8} {target : UInt16} (h : c.registers.ip + 2 + distanceOf d = target)
    (h' : c.registers.ip + 3 + wordOf low high = target) :
    Alternate c [0xEB, d] [0xE9, low, high] (some target)
  | jumpIf {code d low high : UInt8} (hcode : code < 16) {target : UInt16}
    (h : c.registers.ip + 2 + distanceOf d = target)
    (h' : c.registers.ip + 4 + wordOf low high = target) :
    Alternate c [0x70 + code, d] [0x0F, 0x80 + code, low, high]
      (if condition code c.registers.flags then some target else none)
  | symm {e e' : List UInt8} {target : Option UInt16} (h : Alternate c e e' target) :
    Alternate c e' e target

def IsProduct (e : List UInt8) : Prop :=
  e.head? = some 0x69 ∨ e.head? = some 0x6B

inductive Equivalent (c : Cpu) : List UInt8 → List UInt8 → Option UInt16 → Prop where
  | twins {e e' : List UInt8} (h : Twins c e e') : Equivalent c e e' none
  | multiply {w : Width} {r : Reg} {p : Place} {v : UInt32}
    {front front' number number' : List UInt8} (h : Multiplies c w r p v front number)
    (h' : Multiplies c w r p v front' number') (hl : front'.length = front.length)
    (he : IsProduct (front ++ number)) (he' : IsProduct (front' ++ number')) :
    Equivalent c (front ++ number) (front' ++ number') none
  | hops {e e' : List UInt8} {target : Option UInt16}
    (h : Hops c e (target.getD (c.registers.ip + UInt16.ofNat e.length)))
    (h' : Hops c e' (target.getD (c.registers.ip + UInt16.ofNat e'.length))) :
    Equivalent c e e' target

section Alternatives

variable {c : Cpu} {e e' : List UInt8} {target : Option UInt16}

theorem Equivalent.symm (h : Equivalent c e e' target) : Equivalent c e' e target := by
  cases h with
  | twins h => exact .twins h.symm
  | multiply h h' hl he he' => exact .multiply h' h hl.symm he' he
  | hops h h' => exact .hops h' h

theorem equivalent_jumpIf {code d low high : UInt8} (hcode : code < 16) {target : UInt16}
    (h : c.registers.ip + 2 + distanceOf d = target)
    (h' : c.registers.ip + 4 + wordOf low high = target) :
    Equivalent c [0x70 + code, d] [0x0F, 0x80 + code, low, high]
      (if condition code c.registers.flags then some target else none) := by
  by_cases hf : condition code c.registers.flags = true
  · rw [if_pos hf]
    exact .hops ⟨encodes_jumpIf hcode d, jumps_if hf _, h⟩
      ⟨encodes_jumpIfNear hcode low high, jumps_if hf _, h'⟩
  · rw [if_neg hf]
    exact .hops ⟨encodes_jumpIf hcode d, jumps_not hf _, UInt16.add_zero _⟩
      ⟨encodes_jumpIfNear hcode low high, jumps_not hf _, UInt16.add_zero _⟩

theorem Alternate.equivalent (h : Alternate c e e' target) : Equivalent c e e' target := by
  induction h with
  | operation h => exact .twins h.twins
  | @multiply x place h v =>
    -- a product cuts its number off at the width, up to which the sign has been copied
    have hw : c.prefixes.operandWidth.truncate
        (numberOf c.prefixes.operandWidth (extended c.prefixes.operandWidth v)) =
        c.prefixes.operandWidth.truncate (Width.byte.signExtend v.toUInt32) := by
      rw [numberOf_extended, truncate_truncate]
    have hfull := multiplies_immediate (c := c) (b := 0x69) rfl h
      fun _ _ => reads_fetch (length_extended _ v)
    rw [hw] at hfull
    exact .multiply hfull
      (multiplies_immediate (b := 0x6B) rfl h fun _ _ => reads_fetchSignedByte v) rfl
      (.inl rfl) (.inr rfl)
  | @jump d low high target h h' =>
    exact .hops ⟨encodes_jumpShort d, jumps_relative c _, h⟩
      ⟨encodes_jumpNear low high, jumps_relative c _, h'⟩
  | jumpIf hcode h h' => exact equivalent_jumpIf hcode h h'
  | symm _ ih => exact ih.symm

end Alternatives

end Pc8086.Cpu
