import Assembler65816.Image.IntelHex
import Assembler65816.Text.Lines
import Mathlib.Data.List.Basic

/-! # Reading Intel HEX

A reader for the record types that an image is written with. It takes a text line by line, checks
the length field and the checksum of every record, and gives each data byte with its address. What
is written for an image reads back as the bytes of the image, and the records are laid out bank by
bank.
-/
namespace Assembler65816.IntelHex

def bytes? : Text → Option (List UInt8)
  | [] => some []
  | [_] => none
  | high :: low :: rest => do
    let h ← Numeral.digit? 16 high
    let l ← Numeral.digit? 16 low
    return UInt8.ofNat (16 * h + l) :: (← bytes? rest)

def RecordType.ofCode? (code : UInt8) : Option RecordType :=
  if code = 0x00 then some .data
  else if code = 0x01 then some .endOfFile
  else if code = 0x04 then some .extendedAddress
  else none

/-- A record from its bytes: length, address, type, data and checksum. -/
def Record.ofBytes? : List UInt8 → Option Record
  | count :: high :: low :: code :: rest =>
    if rest.length = count.toNat + 1 ∧
        (count :: high :: low :: code :: rest).foldl (· + ·) 0 = 0 then
      (RecordType.ofCode? code).map fun type =>
        ⟨UInt16.ofNat (high.toNat * 0x100 + low.toNat), type, rest.take count.toNat⟩
    else none
  | _ => none

def Record.ofLine? : Text → Option Record
  | ':' :: digits => (bytes? digits).bind Record.ofBytes?
  | _ => none

def cells : Nat → List UInt8 → List (Nat × UInt8)
  | _, [] => []
  | address, byte :: rest => (address, byte) :: cells (address + 1) rest

/-- What records put into memory, when `upper` is the upper half of the addresses. The end record
has to come, and to come last. -/
def load? : Nat → List Record → Option (List (Nat × UInt8))
  | upper, ⟨address, .data, data⟩ :: rest =>
    (load? upper rest).map (cells (upper * 0x10000 + address.toNat) data ++ ·)
  | _, ⟨_, .extendedAddress, [high, low]⟩ :: rest => load? (high.toNat * 0x100 + low.toNat) rest
  | _, [⟨_, .endOfFile, []⟩] => some []
  | _, _ => none

def records? (text : Text) : Option (List Record) := (Text.lines text).mapM Record.ofLine?

def read? (text : Text) : Option (List (Nat × UInt8)) := (records? text).bind (load? 0)

theorem cells_append (address : Nat) (front back : List UInt8) :
    cells address (front ++ back) = cells address front ++ cells (address + front.length) back := by
  induction front generalizing address with
  | nil => rfl
  | cons byte rest ih =>
    rw [List.cons_append, cells, cells, ih, List.cons_append, List.length_cons,
      Nat.add_right_comm, Nat.add_assoc]

theorem length_cells (address : Nat) (run : List UInt8) :
    (cells address run).length = run.length := by
  induction run generalizing address with
  | nil => rfl
  | cons byte rest ih => rw [cells, List.length_cons, ih, List.length_cons]

theorem getElem?_cells (address : Nat) (run : List UInt8) (k : Nat) :
    (cells address run)[k]? = run[k]?.map fun byte => (address + k, byte) := by
  induction run generalizing address k with
  | nil => rfl
  | cons byte rest ih =>
    cases k with
    | zero => rfl
    | succ k =>
      rw [cells, List.getElem?_cons_succ, List.getElem?_cons_succ, ih, Nat.add_right_comm]
      rfl

theorem hexDigits_byte (byte : UInt8) : ∃ high low, Numeral.hexDigits 2 byte.toNat = [high, low] ∧
    Numeral.digit? 16 high = some (byte.toNat / 16) ∧
    Numeral.digit? 16 low = some (byte.toNat % 16) := by
  have digit : ∀ value < 16, Numeral.digit? 16 (Nat.digitChar value).toUpper = some value := by
    decide
  have small := byte.toNat_lt
  by_cases one : byte.toNat < 16
  · refine ⟨'0', (Nat.digitChar byte.toNat).toUpper, ?_, ?_, ?_⟩
    · rw [Numeral.hexDigits, Nat.toDigits_of_lt_base one]
      rfl
    · rw [Nat.div_eq_of_lt one]
      rfl
    · rw [Nat.mod_eq_of_lt one]
      exact digit _ one
  · refine ⟨_, _, ?_, digit (byte.toNat / 16) (by omega), digit (byte.toNat % 16) (by omega)⟩
    rw [Numeral.hexDigits, Nat.toDigits_of_base_le (by omega) (by omega),
      Nat.toDigits_of_lt_base (by omega)]
    rfl

theorem bytes?_hexDigits (run : List UInt8) :
    bytes? (run.flatMap fun byte => Numeral.hexDigits 2 byte.toNat) = some run := by
  induction run with
  | nil => rfl
  | cons byte rest ih =>
    obtain ⟨high, low, digits, h, l⟩ := hexDigits_byte byte
    have whole : 16 * (byte.toNat / 16) + byte.toNat % 16 = byte.toNat := Nat.div_add_mod _ _
    rw [List.flatMap_cons, digits]
    simp only [List.cons_append, List.nil_append, bytes?, h, l, ih, Option.pure_def,
      Option.bind_eq_bind, Option.bind_some, whole, UInt8.ofNat_toNat]

theorem RecordType.ofCode?_code (type : RecordType) : RecordType.ofCode? type.code = some type := by
  cases type <;> rfl

theorem address_halves (address : UInt16) :
    UInt16.ofNat ((address >>> 8).toUInt8.toNat * 0x100 + address.toUInt8.toNat) = address := by
  have size := address.toNat_lt
  have high : (address >>> 8).toUInt8.toNat = address.toNat / 0x100 := by
    simp [Nat.shiftRight_eq_div_pow]
    omega
  have low : address.toUInt8.toNat = address.toNat % 0x100 := by simp
  rw [high, low, Nat.div_add_mod', UInt16.ofNat_toNat]

theorem Record.sum_eq_zero (r : Record) : (r.content ++ [r.checksum]).foldl (· + ·) 0 = 0 := by
  rw [List.foldl_append, Record.checksum, UInt8.zero_sub]
  exact UInt8.add_right_neg _

theorem Record.ofLine?_render {r : Record} (short : r.data.length < 0x100) :
    Record.ofLine? r.render = some r := by
  have count : (UInt8.ofNat r.data.length).toNat = r.data.length := by
    rw [UInt8.toNat_ofNat', Nat.mod_eq_of_lt short]
  have sum := r.sum_eq_zero
  rw [Record.render, Record.ofLine?, bytes?_hexDigits, Option.bind_some]
  simp only [Record.content, List.cons_append] at sum ⊢
  rw [Record.ofBytes?, if_pos ⟨by simp [count], sum⟩, RecordType.ofCode?_code, Option.map_some,
    address_halves, count, List.take_left']
  rfl

theorem Record.not_mem_render {r : Record} {c : Char} (colon : c ≠ ':')
    (plain : Numeral.digit? 16 c = none) : c ∉ r.render := by
  intro mem
  rcases List.mem_cons.mp mem with rfl | digits
  · exact colon rfl
  · obtain ⟨byte, _, here⟩ := List.mem_flatMap.mp digits
    obtain ⟨high, low, digits, h, l⟩ := hexDigits_byte byte
    rw [digits] at here
    rcases List.mem_cons.mp here with rfl | here
    · rw [h] at plain
      cases plain
    · rw [← List.mem_singleton.mp here, plain] at l
      cases l

theorem lines_flatMap_render (rs : List Record) :
    Text.lines (rs.flatMap fun r => r.render ++ ['\n']) = rs.map Record.render := by
  induction rs with
  | nil => rfl
  | cons r rest ih =>
    have feed : '\n' ∉ r.render := Record.not_mem_render (by decide) (by decide)
    have carriage : '\r' ∉ r.render := Record.not_mem_render (by decide) (by decide)
    rw [List.flatMap_cons, List.append_assoc, List.cons_append, List.nil_append,
      Text.lines_feed feed fun last => carriage (List.mem_of_getLast? last), ih, List.map_cons]

theorem records?_render {rs : List Record} (short : ∀ r ∈ rs, r.data.length < 0x100) :
    records? (rs.flatMap fun r => r.render ++ ['\n']) = some rs := by
  rw [records?, lines_flatMap_render]
  induction rs with
  | nil => rfl
  | cons r rest ih =>
    rw [List.forall_mem_cons] at short
    rw [List.map_cons, List.mapM_cons, Record.ofLine?_render short.1, ih short.2]
    rfl

/-- The records that may stand for bytes from `address` on when `bank` has been announced. -/
inductive Written : Option Nat → Nat → List UInt8 → List Record → Prop where
  | nil (bank : Option Nat) (address : Nat) : Written bank address [] []
  | line {bank : Option Nat} {address : Nat} {run rest : List UInt8} {rs : List Record}
      (announced : bank = some (address / 0x10000)) (positive : 0 < run.length)
      (short : run.length ≤ lineLimit) (within : address % 0x10000 + run.length ≤ 0x10000)
      (more : Written bank (address + run.length) rest rs) :
      Written bank address (run ++ rest) (⟨UInt16.ofNat address, .data, run⟩ :: rs)
  | bank {bank : Option Nat} {address : Nat} {run : List UInt8} {rs : List Record}
      (fresh : bank ≠ some (address / 0x10000)) (positive : 0 < run.length)
      (more : Written (some (address / 0x10000)) address run rs) :
      Written bank address run (bankRecord (address / 0x10000) :: rs)

theorem dataRecords_nil (fuel : Nat) (bank : Option Nat) (address : Nat) :
    dataRecords fuel bank address [] = [] := by
  cases fuel <;> rfl

/-- A data record takes up to `count` bytes when neither its line nor its bank is too short. -/
theorem Written.take {address count : Nat} {run : List UInt8} {rs : List Record}
    (positive : 0 < run.length) (fits : 0 < count) (short : count ≤ lineLimit)
    (within : address % 0x10000 + count ≤ 0x10000)
    (more : Written (some (address / 0x10000)) (address + (run.take count).length)
      (run.drop count) rs) :
    Written (some (address / 0x10000)) address run
      (⟨UInt16.ofNat address, .data, run.take count⟩ :: rs) := by
  have length : (run.take count).length = min count run.length := List.length_take
  have line := Written.line rfl (by omega) (by omega) (by omega) more
  rwa [List.take_append_drop] at line

theorem dataRecords_written {fuel : Nat} (bank : Option Nat) (address : Nat) {run : List UInt8}
    (enough : run.length ≤ fuel) :
    Written bank address run (dataRecords fuel bank address run) := by
  induction fuel generalizing bank address run with
  | zero =>
    obtain rfl := List.eq_nil_of_length_eq_zero (Nat.le_zero.mp enough)
    exact .nil bank address
  | succ fuel ih =>
    cases run with
    | nil => exact .nil bank address
    | cons byte rest =>
      have positive : 0 < (byte :: rest).length := Nat.zero_lt_succ _
      simp only [dataRecords]
      generalize byte :: rest = run at *
      generalize counted : min lineLimit (0x10000 - address % 0x10000) = count
      have bounds : 0 < count ∧ count ≤ lineLimit ∧ address % 0x10000 + count ≤ 0x10000 := by
        unfold lineLimit at counted ⊢
        omega
      have more : Written (some (address / 0x10000)) (address + (run.take count).length)
          (run.drop count)
          (dataRecords fuel (some (address / 0x10000)) (address + count) (run.drop count)) := by
        have length : (run.take count).length = min count run.length := List.length_take
        by_cases last : run.length ≤ count
        · rw [List.drop_eq_nil_of_le last, dataRecords_nil]
          exact .nil _ _
        · rw [show (run.take count).length = count by omega]
          apply ih
          rw [List.length_drop]
          omega
      have line := Written.take positive bounds.1 bounds.2.1 bounds.2.2 more
      split
      · next announced =>
        rw [announced]
        exact line
      · next fresh => exact .bank fresh positive line

theorem load?_bankRecord {bank : Nat} (small : bank < 0x10000) (upper : Nat) (rest : List Record) :
    load? upper (bankRecord bank :: rest) = load? bank rest := by
  have halves : (UInt8.ofNat (bank / 0x100)).toNat * 0x100 + (UInt8.ofNat bank).toNat = bank := by
    rw [UInt8.toNat_ofNat', UInt8.toNat_ofNat']
    omega
  rw [bankRecord, load?, halves]

/-- Loading the records of a run of bytes gives the bytes at their addresses. -/
theorem Written.loads {bank : Option Nat} {address : Nat} {run : List UInt8}
    {rs : List Record} (h : Written bank address run rs) (upper : Nat)
    (fits : address + run.length ≤ UInt32.size) (announced : ∀ b, bank = some b → upper = b) :
    load? upper (rs ++ [⟨0, .endOfFile, []⟩]) = some (cells address run) := by
  induction h generalizing upper with
  | nil => rfl
  | @line bank address run rest rs here positive short within more ih =>
    rw [List.length_append] at fits
    have base : upper * 0x10000 + (UInt16.ofNat address).toNat = address := by
      rw [announced _ here, UInt16.toNat_ofNat']
      omega
    rw [List.cons_append, load?, ih upper (by omega) announced, cells_append, Option.map_some,
      base]
  | @bank bank address run rs fresh positive more ih =>
    have small : address / 0x10000 < 0x10000 := by
      unfold UInt32.size at fits
      omega
    rw [List.cons_append, load?_bankRecord small]
    exact ih _ fits fun _ same => Option.some.inj same

structure Bank where
  number : Nat
  lines : List Record

def Bank.records (b : Bank) : List Record := bankRecord b.number :: b.lines

/-- A data record that is not empty, fits its line and stays in its bank. -/
structure Record.Proper (r : Record) : Prop where
  data : r.type = .data
  positive : 0 < r.data.length
  short : r.data.length ≤ 32
  within : r.address.toNat + r.data.length ≤ 0x10000

structure Bank.Proper (b : Bank) : Prop where
  number : b.number < 0x10000
  used : b.lines ≠ []
  lines : ∀ r ∈ b.lines, r.Proper

/-- Records go bank by bank: those of the bank at hand, then whole banks in increasing order. -/
theorem Written.banks {bank : Option Nat} {address : Nat} {run : List UInt8} {rs : List Record}
    (h : Written bank address run rs) (fits : address + run.length ≤ UInt32.size)
    (behind : ∀ b, bank = some b → b ≤ address / 0x10000) :
    ∃ (lines : List Record) (banks : List Bank), rs = lines ++ banks.flatMap Bank.records ∧
      (∀ r ∈ lines, r.Proper) ∧
      (lines ≠ [] ↔ bank = some (address / 0x10000) ∧ 0 < run.length) ∧
      (∀ b ∈ banks, b.Proper ∧ address / 0x10000 ≤ b.number ∧ bank ≠ some b.number) ∧
      banks.Pairwise fun b b' => b.number < b'.number := by
  induction h with
  | nil => exact ⟨[], [], by simp⟩
  | @line bank address run rest rs here positive short within more ih =>
    rw [List.length_append] at fits ⊢
    have forward : address / 0x10000 ≤ (address + run.length) / 0x10000 := by omega
    obtain ⟨lines, banks, rfl, proper, _, whole, increasing⟩ :=
      ih (by omega) fun b same => Nat.le_trans (behind b same) forward
    refine ⟨_ :: lines, banks, rfl, ?_, ?_, ?_, increasing⟩
    · intro r mem
      rcases List.mem_cons.mp mem with rfl | later
      · refine ⟨rfl, positive, short, ?_⟩
        rw [UInt16.toNat_ofNat']
        exact within
      · exact proper r later
    · exact ⟨fun _ => ⟨here, by omega⟩, fun _ => List.cons_ne_nil _ _⟩
    · intro b mem
      obtain ⟨ok, ahead, other⟩ := whole b mem
      exact ⟨ok, Nat.le_trans forward ahead, other⟩
  | @bank bank address run rs fresh positive more ih =>
    obtain ⟨lines, banks, rfl, proper, used, whole, increasing⟩ :=
      ih fits fun b same => Nat.le_of_eq (Option.some.inj same).symm
    have small : address / 0x10000 < 0x10000 := by
      unfold UInt32.size at fits
      omega
    have later : ∀ b ∈ banks, address / 0x10000 < b.number := by
      intro b mem
      obtain ⟨_, ahead, other⟩ := whole b mem
      exact Nat.lt_of_le_of_ne ahead fun same => other (congrArg some same)
    refine ⟨[], ⟨address / 0x10000, lines⟩ :: banks, rfl, by simp, by simp [fresh], ?_, ?_⟩
    · intro b mem
      rcases List.mem_cons.mp mem with rfl | further
      · exact ⟨⟨small, used.mpr ⟨rfl, positive⟩, proper⟩, Nat.le_refl _, fresh⟩
      · refine ⟨(whole b further).1, (whole b further).2.1, fun same => ?_⟩
        have above := later b further
        have below := behind b.number same
        omega
    · exact List.pairwise_cons.mpr ⟨later, increasing⟩

theorem limit_bounds (i : Image) : i.limit.toNat < UInt32.size ∧ i.base.toNat ≤ i.limit.toNat ∧
    i.limit.toNat - i.base.toNat ≤ i.bytes.size ∧
    (i.base.toNat + i.bytes.size ≤ UInt32.size - 1 →
      i.limit.toNat - i.base.toNat = i.bytes.size) := by
  have base := i.base.toNat_lt
  have size : i.size.toNat = i.bytes.size % 2 ^ 32 := by rw [Image.size, UInt32.toNat_ofNat']
  have limit : i.limit.toNat = min (i.base.toNat + i.bytes.size % 2 ^ 32) (2 ^ 32 - 1) := by
    rw [Image.limit, saturatingAdd, size]
    split
    · next fits =>
      rw [UInt32.toNat_add, size]
      unfold UInt32.size at fits
      omega
    · next full =>
      unfold UInt32.size at full
      rw [show (0xFFFFFFFF : UInt32).toNat = 2 ^ 32 - 1 from rfl]
      omega
  unfold UInt32.size
  omega

def reached (i : Image) : List UInt8 := i.bytes.toList.take (i.limit.toNat - i.base.toNat)

theorem length_reached (i : Image) : (reached i).length = i.limit.toNat - i.base.toNat := by
  obtain ⟨_, _, inside, _⟩ := limit_bounds i
  rw [reached, List.length_take, Array.length_toList]
  omega

theorem reached_fits (i : Image) : i.base.toNat + (reached i).length ≤ UInt32.size := by
  obtain ⟨top, above, _, _⟩ := limit_bounds i
  rw [length_reached]
  omega

theorem written_reached (i : Image) : Written none i.base.toNat (reached i)
    (dataRecords (reached i).length none i.base.toNat (reached i)) :=
  dataRecords_written none i.base.toNat (Nat.le_refl _)

theorem records_banks (i : Image) : ∃ banks : List Bank,
    records i = banks.flatMap Bank.records ++ [⟨0, .endOfFile, []⟩] ∧ (∀ b ∈ banks, b.Proper) ∧
      banks.Pairwise fun b b' => b.number < b'.number := by
  obtain ⟨lines, banks, written, _, used, proper, increasing⟩ :=
    (written_reached i).banks (reached_fits i) (by simp)
  have unused : lines = [] := by
    by_contra some
    cases (used.mp some).1
  refine ⟨banks, ?_, fun b mem => (proper b mem).1, increasing⟩
  rw [unused, List.nil_append] at written
  rw [records, ← written]
  rfl

theorem records?_render_image (i : Image) : records? (render i) = some (records i) := by
  obtain ⟨banks, eq, proper, _⟩ := records_banks i
  apply records?_render
  rw [eq]
  intro r mem
  rcases List.mem_append.mp mem with inBank | last
  · obtain ⟨b, here, inside⟩ := List.mem_flatMap.mp inBank
    rcases List.mem_cons.mp inside with rfl | line
    · show 2 < 0x100
      decide
    · have short := ((proper b here).lines r line).short
      omega
  · rw [List.mem_singleton.mp last]
    decide

/-- The text that is written for an image reads back as its bytes at their addresses, all of them
unless the image passes the top of the address space. Its records go bank by bank, each bank
announced once, and the end record comes last. -/
theorem read_render (i : Image) :
    (∃ memory, read? (render i) = some memory ∧
      memory.length = i.limit.toNat - i.base.toNat ∧
      (∀ k < i.limit.toNat - i.base.toNat,
        memory[k]? = i.bytes[k]?.map fun byte => (i.base.toNat + k, byte)) ∧
      (i.base.toNat + i.bytes.size ≤ UInt32.size - 1 → memory.length = i.bytes.size)) ∧
    ∃ banks : List Bank,
      records? (render i) = some (banks.flatMap Bank.records ++ [⟨0, .endOfFile, []⟩]) ∧
      (∀ b ∈ banks, b.Proper) ∧ banks.Pairwise fun b b' => b.number < b'.number := by
  constructor
  · have loaded := (written_reached i).loads 0 (reached_fits i) (by simp)
    refine ⟨cells i.base.toNat (reached i), ?_, ?_, ?_, ?_⟩
    · rw [read?, records?_render_image, Option.bind_some]
      exact loaded
    · rw [length_cells, length_reached]
    · intro k below
      rw [getElem?_cells, reached, List.getElem?_take_of_lt below, Array.getElem?_toList]
    · rw [length_cells, length_reached]
      exact (limit_bounds i).2.2.2
  · obtain ⟨banks, eq, proper, increasing⟩ := records_banks i
    exact ⟨banks, by rw [records?_render_image, eq], proper, increasing⟩

end Assembler65816.IntelHex
