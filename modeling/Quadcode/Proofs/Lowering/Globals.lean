import Quadcode.Proofs.Lowering.Survival

/-!
# The storage of globals

The data section reserves bytes for a global, the interpreter keeps slots for it, and code addresses
its elements. The three agree unless there is an initial value for something that is not one word: the
data section then has room for the initial value only.
-/

namespace Quadcode

open X86 List Option Machine

/-- The bytes of a word, the lowest first. -/
def X86.wordBytes (w : Word) : List Byte := (List.range slotBytes).map (byteOf w)

@[simp]
theorem X86.length_wordBytes (w : Word) : (wordBytes w).length = slotBytes := by simp [wordBytes]

theorem X86.wordBytes_zero : wordBytes 0 = List.replicate slotBytes 0 := by decide

/-- What the bytes of a place in the data section hold. -/
def X86.Datum.bytes : Datum → List Byte
  | .word i => wordBytes (extended i)
  | .double x => wordBytes x.bits.toBitVec
  | .zero n => List.replicate n 0
  | .string s => s.toUTF8.toList.map UInt8.toBitVec ++ [0]

/-- The word of a number. -/
def Value.word? : Value → Option Word
  | .int i => some (extended i)
  | .float x => some x.bits.toBitVec
  | _ => none

namespace Lowering

variable {P : Platform} {s : Site} {c : Core} {m : Nat} {w w' : Literals} {p : Allocation.Progress}
  {depth : VarId → Nat} {i : Int32}

theorem toInt_saturate (z : Int) : (saturate z).toInt = max (-2 ^ 31) (min z (2 ^ 31 - 1)) := by
  have least : Int32.minValue.toInt = -2 ^ 31 := by decide
  have greatest : Int32.maxValue.toInt = 2 ^ 31 - 1 := by decide
  unfold saturate
  split
  · omega
  · split
    · omega
    · rw [Int32.toInt_ofInt_of_le] <;> omega

/-- What an index stands for. -/
def Indexes (P : Platform) (s : Site) (c : Core) : Arg → Int32 → Prop
  | .const (.int j), i => j = i
  | .var u, i => ∃ l, s.allocation.locations[u]? = some l ∧ P.read c .int (ofLocation l) = .ok (extended i)
  | _, _ => False

/-- A nonnegative offset as an address. -/
theorem extended_of_nonneg (nonneg : 0 ≤ i.toInt) : extended i = .ofNat 64 i.toInt.toNat := by
  have small := i.toInt_lt
  rw [← BitVec.toInt_inj, toInt_extended, BitVec.toInt_eq_toNat_of_lt] <;> simp only [BitVec.toNat_ofNat] <;> omega

/-- The address of an element of a global is its distance from the label, unless that is known and too large for
an operand. -/
theorem Active.element {v : VarId} {x : Variable} {name : Label} {index : Arg} {code : List Inst} {e : Operand}
    (active : Active P s c m) (placed : Allocation.Placed s.graph s.allocation p depth)
    (declared : s.graph.vars[v]? = some x) (direct : x.ty.isPointer = false)
    (here : s.allocation.locations[v]? = some (.global name)) (given : Gives (element s v index) w (code, e) w')
    (indexes : Indexes P s c index i) (nonneg : 0 ≤ i.toInt) :
    ∃ d o, P.Leads code c d ∧ P.address d e = .ok (P.symbol name + .ofNat 64 o) ∧
      o ≤ slotBytes * i.toInt.toNat ∧ (slotBytes * i.toInt < 2 ^ 31 → o = slotBytes * i.toInt.toNat) := by
  simp only [Lowering.element, gives_bind, gives_ofExcept, Site.var, place, Site.location, bind_eq_ok, pure_eq_ok,
    orFault_eq_ok] at given
  obtain ⟨y, _, ⟨declared', rfl⟩, _, _, ⟨⟨l, here', rfl⟩, rfl⟩, given⟩ := given
  cases declared.symm.trans declared'
  cases here.symm.trans here'
  simp only [direct, Bool.false_eq_true, if_false, ofLocation] at given
  have scaled : (slotBytes * i.toInt : Int) = (slotBytes * i.toInt.toNat : Nat) := by
    rw [Int.natCast_mul, Int.toNat_of_nonneg nonneg]
  cases index with
  | const k =>
    cases k with
    | int j =>
      cases indexes
      cases given
      have offset : (saturate (Int32.toInt 0 + (saturate (slotBytes * i.toInt)).toInt)).toInt =
          min (slotBytes * i.toInt) (2 ^ 31 - 1) := by
        rw [toInt_saturate, toInt_saturate, Int32.toInt_zero]
        omega
      refine ⟨c, (min (slotBytes * i.toInt) (2 ^ 31 - 1)).toNat, rfl, ?_, by omega, by omega⟩
      rw [← offset, ← extended_of_nonneg (by omega)]
      rfl
    | float y => cases indexes
  | str label => cases indexes
  | var u =>
    obtain ⟨l, there, read⟩ := indexes
    simp only [knownOffset?, bind_none, elementBehind, operand, gives_bind, gives_ofExcept, gives_pure, place,
      Site.location, bind_eq_ok, pure_eq_ok, orFault_eq_ok, Prod.mk.injEq] at given
    obtain ⟨_, _, ⟨_, _, ⟨_, _, ⟨⟨l', there', rfl⟩, rfl⟩, rfl, rfl⟩, rfl, rfl⟩, ⟨rfl, rfl⟩, rfl⟩ := given
    cases there.symm.trans there'
    obtain ⟨t, led, pushed, same⟩ := leads_lea P c name
    rw [← active.read_pushed placed pushed there] at read
    refine ⟨P.trim (t.setReg scratch (extended i)), slotBytes * i.toInt.toNat, led.append ?_, ?_, Nat.le_refl _,
      fun _ => rfl⟩
    · simp [mov, Operand.isMemory, Platform.leads_single, Platform.act, Platform.move, read, bind, Except.bind,
        Platform.write]
    · change Except.ok (t.reg scratch2 + 8 * extended i + extended 0) = _
      rw [same, extended_of_nonneg nonneg, BitVec.ofNat_mul]
      exact congrArg Except.ok (BitVec.add_zero _)

end Lowering

/-! ## At the start -/

variable {m : Module} {g : Global} {l : Listing} {d : Datum} {n : Nat}

/-- The slots of globals that have different names are kept apart. -/
theorem Machine.start_globals {input : List Int32} {machine : Machine} (distinct : (m.globals.map Global.name).Nodup)
    (started : start m input = .ok machine) (member : g ∈ m.globals) :
    ∃ slots, g.slots = .ok slots ∧ machine.globals[g.name]? = some slots := by
  simp only [start, bind_eq_ok, pure_eq_ok] at started
  obtain ⟨globals, inserted, rfl⟩ := started
  -- Whatever comes later has another name.
  refine foldlM_ok (fun done globals => ∀ g ∈ done, ∃ slots, g.slots = .ok slots ∧ globals[g.name]? = some slots)
    (by simp) (fun done h rest globals globals' split ih step g within => ?_) inserted g member
  obtain ⟨slots, found, step⟩ := bind_eq_ok.1 step
  cases step
  rw [split, List.map_append, List.map_cons, List.nodup_append'] at distinct
  rcases List.mem_append.1 within with before | here
  · obtain ⟨slots', found', there⟩ := ih g before
    refine ⟨slots', found', ?_⟩
    have other : h.name ≠ g.name := fun same =>
      distinct.2.2 (List.mem_map_of_mem before) (same ▸ List.mem_cons_self ..)
    rw [Std.ExtTreeMap.getElem?_insert, if_neg (by simpa using other), there]
  · cases List.mem_singleton.1 here
    exact ⟨slots, found, by simp⟩

/-- The first place with the name of a global is its own. -/
theorem X86.Listing.lookup_data (distinct : (l.globals.map Global.name).Nodup) (member : g ∈ l.globals) :
    l.data.lookup g.name = some (Datum.ofGlobal? g) := by
  obtain ⟨before, after, split⟩ := List.append_of_mem member
  rw [split, List.map_append, List.map_cons, List.nodup_append'] at distinct
  refine List.lookup_eq_some_iff.2 ⟨before.map fun g => (g.name, Datum.ofGlobal? g), _, by
    simp only [data, split, List.map_append, List.map_cons, List.append_assoc, List.cons_append]; rfl, ?_⟩
  intro place earlier
  obtain ⟨h, there, rfl⟩ := mem_map.1 earlier
  have other : g.name ≠ h.name := fun same =>
    distinct.2.2 (mem_map_of_mem there) (same ▸ mem_cons_self ..)
  simpa using other

/-- A listing has a text if there is room for every global and every routine is written to the end. -/
theorem X86.Listing.text?_isSome : l.text?.isSome ↔
    (∀ g ∈ l.globals, (Datum.ofGlobal? g).isSome) ∧ ∀ r ∈ l.routines, r.draft.complete := by
  have room (label : Label) (d : Option Datum) : (place (label, d)).complete = d.isSome := by cases d <;> rfl
  simp [text?, Text.Draft.text?_isSome, draft, data, Text.Draft.complete_lines, Text.Draft.whole, room]

/-- A place in the data section serves as the slots of a global: it has their size and, where they are numbers,
their contents at the start, and the elements that code addresses are in it. -/
structure Serves (m : Module) (g : Global) (d : Datum) (n : Nat) : Prop where
  size : d.bytes.length = slotBytes * n
  contents : ∀ input machine, start m input = .ok machine → ∃ slots, machine.globals[g.name]? = some slots ∧
    slots.size = n ∧ ∀ (k : Nat) x b, slots[k]? = some x → x.word? = some b →
      (d.bytes.drop (slotBytes * k)).take slotBytes = wordBytes b
  elements : ∀ f ∈ m.graphs, ∀ live a, f.place = .ok (live, a) → ∀ (v : VarId) x, f.vars[v]? = some x → x.isGlobal →
    x.name = g.name → x.ty.isPointer = false → ∀ index w code e w',
      Gives (Lowering.element ⟨f, a⟩ v index) w (code, e) w' →
      ∀ P c room i, Lowering.Active P ⟨f, a⟩ c room → Lowering.Indexes P ⟨f, a⟩ c index i → 0 ≤ i.toInt → i.toInt < n →
        ∃ t o, P.Leads code c t ∧ P.address t e = .ok (P.symbol g.name + .ofNat 64 o) ∧ o + slotBytes ≤ d.bytes.length ∧
          (slotBytes * i.toInt < 2 ^ 31 → o = slotBytes * i.toInt.toNat)

theorem size_ofGlobal? (reserved : Datum.ofGlobal? g = some d) (sized : g.ty.slots? = some n) :
    d.bytes.length = slotBytes * n ↔ g.init = none ∨ n = 1 := by
  unfold Datum.ofGlobal? at reserved
  split at reserved
  next i given =>
    cases reserved
    simp [given, Datum.bytes, slotBytes]
  next x given =>
    cases reserved
    simp [given, Datum.bytes, slotBytes]
  next none =>
    rw [sized] at reserved
    simp only [bind_eq_bind, bind_some] at reserved
    split at reserved <;> cases reserved
    simp [none, Datum.bytes, slotBytes]

theorem contents_ofGlobal? {slots : Array Value} (reserved : Datum.ofGlobal? g = some d) (sized : g.ty.slots? = some n)
    (fits : g.init = none ∨ n = 1) (held : g.slots = .ok slots) :
    slots.size = n ∧ ∀ (k : Nat) x b, slots[k]? = some x → x.word? = some b →
      (d.bytes.drop (slotBytes * k)).take slotBytes = wordBytes b := by
  simp only [Global.slots, Ty.storage, sized, bind_eq_ok] at held
  obtain ⟨cells, stored, held⟩ := held
  split at stored <;> cases stored
  cases given : g.init with
  | none =>
    simp only [Datum.ofGlobal?, given, sized, bind_eq_bind, bind_some] at reserved held
    split at reserved <;> cases reserved
    cases held
    refine ⟨Array.size_replicate, fun k x b there number => ?_⟩
    obtain ⟨inside, rfl⟩ := Array.getElem?_eq_some_iff.1 there
    rw [Array.size_replicate] at inside
    obtain rfl : b = 0 := by
      rw [Array.getElem_replicate] at number
      cases ty : g.ty <;> rw [ty] at number <;> cases number <;> rfl
    simp only [Datum.bytes, List.drop_replicate, List.take_replicate, wordBytes_zero, slotBytes]
    congr 1
    omega
  | some c =>
    obtain rfl : n = 1 := by simpa [given] using fits
    rw [given] at held
    cases held
    refine ⟨rfl, fun k x b there number => ?_⟩
    obtain rfl : k = 0 := by
      have inside := (Array.getElem?_eq_some_iff.1 there).1
      exact Nat.lt_one_iff.1 inside
    cases there
    cases c <;> simp only [Datum.ofGlobal?, given] at reserved <;> cases reserved <;> cases number <;>
      exact take_of_length_le (by simp [Datum.bytes])

/-- The data section serves every global that has no initial value or is one word. -/
theorem globals_served {optimize : Bool} {w w' : Literals} {listing : Listing} {stats : Statistics} {text : String}
    {n : Nat} (distinct : (m.globals.map Global.name).Nodup) (compiled : Gives (m.compile optimize) w (listing, stats) w')
    (printed : listing.text? = some text) (member : g ∈ m.globals) (sized : g.ty.slots? = some n) :
    ∃ d, listing.data.lookup g.name = some (some d) ∧ (Serves m g d n ↔ g.init = none ∨ n = 1) := by
  simp only [Module.compile, gives_bind, gives_pure, gives_get] at compiled
  obtain ⟨⟨routines, stats⟩, _, -, literals, _, -, made, -⟩ := compiled
  cases made
  obtain ⟨d, reserved⟩ := isSome_iff_exists.1 ((Listing.text?_isSome.1 (isSome_of_eq_some printed)).1 g member)
  refine ⟨d, reserved ▸ Listing.lookup_data distinct member, fun serves => (size_ofGlobal? reserved sized).1 serves.size,
    fun fits => ?_⟩
  have size := (size_ofGlobal? reserved sized).2 fits
  refine ⟨size, fun input machine started => ?_, ?_⟩
  · obtain ⟨slots, held, there⟩ := start_globals distinct started member
    exact ⟨slots, there, contents_ofGlobal? reserved sized fits held⟩
  · intro f _ live a placing v x declared isGlobal name direct index w code e w' given P c room i active indexes
      nonneg inside
    obtain ⟨_, -, -, allocated⟩ := Graph.place_eq_ok.1 placing
    obtain ⟨p, depth, placed⟩ := allocate_placed allocated
    obtain ⟨t, o, led, address, below, exact'⟩ :=
      active.element placed declared direct (name ▸ placed.owned declared isGlobal) given indexes nonneg
    refine ⟨t, o, led, address, ?_, exact'⟩
    simp only [size, slotBytes] at *
    omega

/-- A function that looks up an entry of a table. -/
def consulting : Function where
  name := "consult"
  vars := #[.declare "table" (.array (.struct "pair" 2) 3) .global, .declare "i" .int .param, .declare "x" .int .local]
  params := [1]
  quads := [⟨some 2, .load 0 (.var 1)⟩, .effect (.ret (some (.var 2)))]

/-- A table that may have an initial value. -/
def table (init : Option Const) : Global := ⟨"table", .array (.struct "pair" 2) 3, init⟩

def tabled (init : Option Const) : Module := ⟨[table init], .ofList [], [consulting.graph]⟩

theorem table_served : ∃ listing stats w text d, Gives ((tabled none).compile true) {} (listing, stats) w ∧
    listing.text? = some text ∧ listing.data.lookup "table" = some (some d) ∧ d.bytes.length = 48 ∧
      Serves (tabled none) (table none) d 6 := by
  have succeeds : (outcome ((tabled none).compile true) {}).1.toOption.map (·.1.draft.complete) = some true := by
    decide +kernel
  obtain ⟨⟨listing, stats⟩, given, complete⟩ := toOption_map_eq_some.1 succeeds
  have given := gives_of_ok given
  obtain ⟨text, printed⟩ : ∃ text, listing.text? = some text := by
    rwa [← isSome_iff_exists, Listing.text?, Text.Draft.text?_isSome]
  obtain ⟨d, there, serves⟩ := globals_served (g := table none) (n := 6) (by decide) given printed
    (mem_singleton_self _) (by decide)
  exact ⟨listing, stats, _, text, d, given, printed, there, (serves.2 (.inl rfl)).size, serves.2 (.inl rfl)⟩

/-- The bytes for the table in the data section, if the listing has a text. -/
def tableSize? (init : Option Const) : Option Nat := do
  let (listing, _) ← (outcome ((tabled init).compile true) {}).1.toOption
  guard listing.draft.complete
  let d ← (← listing.data.lookup "table")
  pure d.bytes.length

/-- An initial value leaves no room for the other entries. -/
theorem table_cut : (table (some (.int 5))).ty.slots? = some 6 ∧ tableSize? (some (.int 5)) = some slotBytes := by
  decide +kernel

end Quadcode
