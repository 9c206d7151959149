import Logrin.PatternCompose
import Logrin.PatternSyntax

/-!
Reading what was written: the tokens of a text are those of the one well-formed list of items
that is written as the text, so `parse` accepts the texts of certain lists of items, and no text
has two readings.
-/

namespace Logrin.Pattern
open Logrin.Library

variable {input text rest : Bytes} {kind : SegmentKind} {pos nameEnd a b : Nat} {t : Token}
  {ts : List Token} {item : Item} {items : List Item}

section Pieces

theorem NameStands.name_ne_nil (h : NameStands kind rest) : kind.name ≠ [] := by
  obtain keyword | ⟨one, _⟩ := h
  · have filled : ∀ kw ∈ kKeywords, kw.1 ≠ [] := by decide +kernel
    exact filled _ keyword.1
  · intro empty
    rw [empty] at one
    cases one

theorem Item.Stands.filled (h : item.Stands rest) : 0 < item.print.length := by
  cases item with
  | literal text => exact List.length_pos_of_ne_nil h.1
  | percent => exact Nat.zero_lt_succ 1
  | directive kind block => simp [Item.print]

theorem Item.Stands.name {block : Option Bytes} (h : (Item.directive kind block).Stands rest) :
    NameStands kind (printBlock block ++ rest) := by
  cases block with
  | none => exact h.1
  | some body => exact h.1

section Written
variable (written : input.drop a = text ++ rest)
include written

theorem getD_written (j : Nat) : input.getD (a + j) 0 = (text ++ rest).getD j 0 := by
  rw [← written, List.getD_eq_getElem?_getD, List.getD_eq_getElem?_getD, List.getElem?_drop]

theorem drop_written : input.drop (a + text.length) = rest := by
  rw [← List.drop_drop, written, List.drop_left]

theorem length_written (some : 0 < text.length) : a + text.length + rest.length = input.length := by
  have size := congrArg List.length written
  rw [List.length_drop, List.length_append] at size
  omega

end Written

theorem written_slice (h : a ≤ b) : input.drop a = slice input a b ++ input.drop b := by
  have rest : input.drop b = (input.drop a).drop (b - a) := by
    rw [List.drop_drop, Nat.add_sub_cancel' h]
  rw [rest, slice, List.take_append_drop]

theorem plainRun_iff :
    PlainRun input input.length a b ↔
      ∃ text rest, input.drop a = text ++ rest ∧ (Item.literal text).Stands rest ∧
        b = a + text.length := by
  constructor
  · intro run
    obtain ⟨some, fits, plain⟩ := run
    have written : input.drop a = slice input a b ++ input.drop b :=
      written_slice (Nat.le_of_lt some)
    have size : (slice input a b).length = b - a := by
      rw [length_slice]
      omega
    refine ⟨_, _, written, ⟨?_, ?_⟩, by omega⟩
    · intro empty
      rw [empty, List.length_nil] at size
      omega
    · intro j inside percent
      have byte := getD_written written j
      rw [getD_append_left _ inside, percent] at byte
      have last := plain (a + j) (by omega) (by omega) byte
      exact ⟨by omega, List.drop_eq_nil_of_le (by omega)⟩
  · intro h
    obtain ⟨text, rest, written, ⟨some, plain⟩, rfl⟩ := h
    have long := List.length_pos_of_ne_nil some
    have size := length_written written long
    refine ⟨by omega, by omega, ?_⟩
    intro j low high percent
    obtain ⟨i, rfl⟩ := Nat.exists_eq_add_of_le low
    rw [getD_written written, getD_append_left _ (by omega)] at percent
    obtain ⟨last, rfl⟩ := plain i (by omega) percent
    rw [List.length_nil] at size
    omega

/-- A token lies in a text where an item is written and can be read off. -/
theorem tokenAt_iff (short : input.length < 2 ^ 32) :
    TokenAt input input.length a b t ↔
      ∃ (item : Item) (rest : Bytes), input.drop a = item.print ++ rest ∧ item.Stands rest ∧
        t = item.token a ∧ b = a + item.print.length := by
  constructor
  · intro lies
    cases lies with
    | literal run =>
        obtain ⟨text, rest, written, stands, rfl⟩ := plainRun_iff.mp run
        exact ⟨.literal text, rest, written, stands, rfl, rfl⟩
    | escape first more second =>
        refine ⟨.percent, input.drop (a + 2), ?_, trivial, rfl, rfl⟩
        rw [head_drop input (by omega), first, head_drop input more, second]
        rfl
    | @directive nameEnd kind block first more name read =>
        obtain ⟨rest, written, stands, rfl⟩ := (readName_iff short more).mp name
        have head := head_drop input (Nat.lt_of_succ_lt more)
        rw [first, written] at head
        have tail := drop_written written
        obtain ⟨rfl, other⟩ | ⟨body, rest', block, balances, rfl⟩ := readBlock_iff.mp read
        · rw [tail] at other
          refine ⟨.directive kind none, rest, ?_, ⟨stands, other⟩, rfl, ?_⟩
          · rw [head]
            simp [Item.print, printBlock]
          · simp [Item.print, printBlock]
            omega
        · rw [tail] at block
          refine ⟨.directive kind (some body), rest', ?_, ⟨block ▸ stands, balances⟩, rfl, ?_⟩
          · rw [head, block]
            simp [Item.print]
          · simp [Item.print, printBlock]
            omega
  · intro h
    obtain ⟨item, rest, written, stands, rfl, rfl⟩ := h
    have size := length_written written stands.filled
    cases item with
    | literal text => exact .literal (plainRun_iff.mpr ⟨text, rest, written, stands, rfl⟩)
    | percent =>
        have more : a + 1 < input.length := by
          simp only [Item.print, List.length_cons, List.length_nil] at size
          omega
        exact .escape (getD_written written 0) more (getD_written written 1)
    | directive kind block =>
        have head : input.drop a = ch '%' :: (kind.name ++ (printBlock block ++ rest)) := by
          rw [written]
          simp [Item.print]
        have tail : input.drop (a + 1) = kind.name ++ (printBlock block ++ rest) :=
          @drop_written _ [ch '%'] _ _ head
        have after : input.drop (a + 1 + kind.name.length) = printBlock block ++ rest :=
          drop_written tail
        have first : input.getD a 0 = ch '%' := @getD_written _ [ch '%'] _ _ head 0
        have named (stands : NameStands kind (printBlock block ++ rest)) :
            a + 1 < input.length ∧
              readName input a = some (some kind, a + 1 + kind.name.length) := by
          have size := length_written tail (List.length_pos_of_ne_nil stands.name_ne_nil)
          have more : a + 1 < input.length := by
            have long := List.length_pos_of_ne_nil stands.name_ne_nil
            omega
          exact ⟨more, (readName_iff short more).mpr ⟨_, tail, stands, rfl⟩⟩
        cases block with
        | none =>
            obtain ⟨name, other⟩ := stands
            obtain ⟨more, name⟩ := named name
            have stop : a + (Item.directive kind none).print.length = a + 1 + kind.name.length := by
              simp [Item.print, printBlock]
              omega
            rw [stop]
            exact .directive first more name (readBlock_iff.mpr (.inl ⟨rfl, after ▸ other⟩))
        | some body =>
            obtain ⟨name, balances⟩ := stands
            obtain ⟨more, name⟩ := named name
            have stop : a + (Item.directive kind (some body)).print.length =
                a + 1 + kind.name.length + (body.length + 2) := by
              simp [Item.print, printBlock]
              omega
            rw [stop]
            exact .directive first more name
              (readBlock_iff.mpr (.inr ⟨body, rest, after, balances, rfl⟩))

end Pieces

section Items

/-- Tokens lie end to end over a text where items are written one after the other. -/
theorem tiles_iff (short : input.length < 2 ^ 32) (inside : a ≤ input.length) :
    Tiles (TokenAt input input.length) a ts input.length ↔
      ∃ items, input.drop a = print items ∧ StandAll items ∧ ts = lay a items := by
  induction ts generalizing a with
  | nil =>
      constructor
      · intro none
        cases none
        exact ⟨[], List.drop_length, trivial, rfl⟩
      · intro h
        obtain ⟨items, written, _, none⟩ := h
        cases items with
        | nil =>
            have past : input.length ≤ a := List.drop_eq_nil_iff.mp written
            rw [Nat.le_antisymm inside past]
            exact .nil _
        | cons => cases none
  | cons t ts ih =>
      constructor
      · intro tiles
        cases tiles with
        | cons lies others =>
            have within := (lies.inside short).2
            obtain ⟨item, rest, written, stands, rfl, rfl⟩ := (tokenAt_iff short).mp lies
            obtain ⟨items, after, stand, rfl⟩ := (ih within).mp others
            rw [drop_written written] at after
            subst after
            exact ⟨item :: items, written, ⟨stands, stand⟩, rfl⟩
      · intro h
        obtain ⟨items, written, stand, same⟩ := h
        cases items with
        | nil => cases same
        | cons item items =>
            obtain ⟨stands, stand⟩ := stand
            obtain ⟨rfl, rfl⟩ := List.cons_eq_cons.mp same
            have split : input.drop a = item.print ++ print items := written
            have lies := (tokenAt_iff short).mpr ⟨item, print items, split, stands, rfl, rfl⟩
            have others := (ih (lies.inside short).2).mpr ⟨items, drop_written split, stand, rfl⟩
            exact .cons lies others

theorem lay_literals (a : Nat) (items : List Item) :
    (lay a items).map Token.isLiteral = items.map Item.isLiteral := by
  induction items generalizing a with
  | nil => rfl
  | cons item items ih =>
      rw [lay, List.map_cons, List.map_cons, ih]
      cases item <;> rfl

theorem lay_kinds (a : Nat) (items : List Item) :
    (lay a items).map Token.kind = items.map Item.kind := by
  induction items generalizing a with
  | nil => rfl
  | cons item items ih =>
      rw [lay, List.map_cons, List.map_cons, ih]
      cases item <;> rfl

theorem length_lay (a : Nat) (items : List Item) : (lay a items).length = items.length := by
  rw [← List.length_map Token.kind, lay_kinds, List.length_map]

theorem separate_lay_iff :
    Separate (lay a items) ↔ items.IsChain fun x y => ¬ (x.isLiteral ∧ y.isLiteral) := by
  have chain :=
    List.isChain_map (R := fun x y : Bool => ¬ (x ∧ y)) Token.isLiteral (l := lay a items)
  rw [lay_literals, List.isChain_map] at chain
  exact chain.symm

/-- The scan finds the items of a text that was written. -/
theorem tokens_of_items (short : (print items).length < 2 ^ 32) (h : WellFormed items) :
    tokens (print items) = some (lay 0 items) :=
  tokens_of_tiles short ((tiles_iff short (Nat.zero_le _)).mpr ⟨items, rfl, h.stand, rfl⟩)
    (separate_lay_iff.mpr h.apart)

/-- A text with few tokens is one that was written. -/
theorem items_of_tokens (short : input.length < 2 ^ 32) (few : ts.length ≤ 64)
    (h : tokens input = some ts) :
    ∃ items, WellFormed items ∧ print items = input ∧ ts = lay 0 items := by
  obtain ⟨tiles, separate⟩ := (tokens_iff_tiles short few).mp h
  obtain ⟨items, written, stand, rfl⟩ := (tiles_iff short (Nat.zero_le _)).mp tiles
  exact ⟨items, ⟨stand, separate_lay_iff.mp separate⟩, written.symm, rfl⟩

theorem token_inj {item' : Item} {rest' : Bytes} (token : item.token a = item'.token a)
    (written : item.print ++ rest = item'.print ++ rest') : item = item' ∧ rest = rest' := by
  have same (size : item.print.length = item'.print.length) :
      item.print = item'.print ∧ rest = rest' := List.append_inj written size
  cases item with
  | literal text =>
      cases item' with
      | literal text' =>
          obtain ⟨_, length⟩ := Token.literal.inj token
          obtain ⟨print, rest⟩ := same (Nat.add_left_cancel length)
          exact ⟨congrArg Item.literal print, rest⟩
      | percent | directive => cases token
  | percent =>
      cases item' with
      | percent => exact ⟨rfl, (same rfl).2⟩
      | literal | directive => cases token
  | directive kind block =>
      cases item' with
      | literal | percent => cases token
      | directive kind' block' =>
          obtain ⟨rfl, _, length⟩ := Token.directive.inj token
          cases block with
          | none =>
              cases block' with
              | none => exact ⟨rfl, (same rfl).2⟩
              | some => cases length
          | some body =>
              cases block' with
              | none => cases length
              | some body' =>
                  have size : body.length = body'.length := by
                    simp only [Option.map_some, Option.some.injEq] at length
                    omega
                  obtain ⟨print, rest⟩ := same (by simp [Item.print, printBlock, size])
                  have bodies : body = body' := by simpa [Item.print, printBlock] using print
                  exact ⟨by rw [bodies], rest⟩

/-- No text is written from two well-formed lists of items. -/
theorem print_injective {items' : List Item} (short : (print items).length < 2 ^ 32)
    (h : WellFormed items) (h' : WellFormed items') (same : print items = print items') :
    items = items' := by
  have tokens_ := tokens_of_items short h
  rw [same, tokens_of_items (same ▸ short) h'] at tokens_
  have laid := Option.some.inj tokens_
  clear tokens_ h h' short
  generalize 0 = a at laid
  induction items generalizing a items' with
  | nil =>
      cases items' with
      | nil => rfl
      | cons => cases laid
  | cons item items ih =>
      cases items' with
      | nil => cases laid
      | cons item' items' =>
          obtain ⟨first, others⟩ := List.cons_eq_cons.mp laid
          obtain ⟨rfl, rest⟩ := token_inj first.symm same
          rw [ih rest _ others]

end Items

/-- The kinds that cannot do without a specification. -/
def needsSpec (kind : SegmentKind) : Bool :=
  kind = .attribute || kind = .foregroundColorStart || kind = .backgroundColorStart

namespace Item

/-- The block is one that the kind accepts, and is there where the kind needs one. -/
def Readable : Item → Prop
  | .literal _ | .percent => True
  | .directive kind block =>
      (∀ body ∈ block, ∃ d, Directive.parse body 0 kind = .ok d) ∧
        (needsSpec kind = true → ∃ body ∈ block, body ≠ [])

def Permitted (config : ParseConfig) : Item → Prop
  | .literal _ | .percent => True
  | .directive kind _ => allowed config kind = true

end Item

/-- The lists of items that are accepted once they are written down. -/
structure Accepted (config : ParseConfig) (items : List Item) : Prop where
  few : items.length ≤ 64
  readable : ∀ item ∈ items, item.Readable
  permitted : ∀ item ∈ items, item.Permitted config
  styles : config.relaxedStyleNesting = true ∨ BalancedStyles (items.map Item.kind)

section Acceptance
variable {config : ParseConfig}

theorem requireSpec_eq_ok {directive : Option Directive} :
    requireSpec kind directive = .ok () ↔
      (needsSpec kind = true → ∃ d ∈ directive, d.hasSpecification = true) := by
  cases directive with
  | none => cases kind <;> simp [requireSpec, getSegmentCapability, needsSpec, error]
  | some d =>
      cases has : d.hasSpecification <;>
        cases kind <;> simp [requireSpec, getSegmentCapability, needsSpec, error, has]

/-- A kind that needs a specification takes its whole block for one. -/
theorem hasSpecification_iff {body : Bytes} {offset : Nat} {d : Directive}
    (needs : needsSpec kind = true) (short : body.length ≤ 65535)
    (h : Directive.parse body offset kind = .ok d) : d.hasSpecification = true ↔ body ≠ [] := by
  have size : specSize kind body = body.length := by
    revert needs
    cases kind <;> simp [needsSpec, specSize, getSegmentCapability]
  rw [Directive.hasSpecification, (parse_spec h).1, size, decide_eq_true_eq,
    UInt16.lt_iff_toNat_lt, toNat_ofNat (by omega), ← List.length_pos_iff]
  rfl

theorem body_written {body : Bytes}
    (written : input.drop a = (Item.directive kind (some body)).print ++ rest) :
    slice input (a + 1 + kind.name.length + 1)
      (a + 1 + kind.name.length + (body.length + 2) - 1) = body := by
  have split : input.drop a = (ch '%' :: kind.name ++ [ch '{']) ++ (body ++ ch '}' :: rest) := by
    rw [written]
    simp [Item.print, printBlock]
  have after := drop_written split
  have start : a + (ch '%' :: kind.name ++ [ch '{']).length = a + 1 + kind.name.length + 1 := by
    simp
    omega
  have stop : a + 1 + kind.name.length + (body.length + 2) - 1 =
      a + 1 + kind.name.length + 1 + body.length := by omega
  rw [start] at after
  rw [stop, slice_add, after, List.take_left]

theorem readable_token_iff (short : input.length ≤ 65535)
    (written : input.drop a = item.print ++ rest) :
    (item.token a).Readable input ↔ item.Readable := by
  cases item with
  | literal | percent => exact Iff.rfl
  | directive kind block =>
      simp only [Item.token, Token.Readable, Item.Readable, requireSpec_eq_ok]
      cases block with
      | none => simp [readDirective]
      | some body =>
          have size := length_written written (by simp [Item.print])
          have shorter : body.length ≤ 65535 := by
            simp only [Item.print, printBlock, List.length_append, List.length_cons] at size
            omega
          simp only [Option.map_some, readDirective, body_written written, Option.map_eq_some_iff,
            toOption_eq_some, Option.mem_some_iff]
          constructor
          · intro h
            obtain ⟨_, ⟨d, parsed, rfl⟩, required⟩ := h
            obtain ⟨o, moved⟩ := parse_offset 0 parsed
            refine ⟨fun _ same => same ▸ ⟨_, moved⟩, fun needs => ⟨body, rfl, ?_⟩⟩
            obtain ⟨_, same, has⟩ := required needs
            cases same
            exact (hasSpecification_iff needs shorter parsed).mp has
          · intro h
            obtain ⟨accepts, filled⟩ := h
            obtain ⟨d, parsed⟩ := accepts body rfl
            obtain ⟨o, moved⟩ := parse_offset (a + 1 + kind.name.length + 1) parsed
            refine ⟨_, ⟨_, moved, rfl⟩, fun needs => ⟨_, rfl, ?_⟩⟩
            obtain ⟨_, rfl, some⟩ := filled needs
            exact (hasSpecification_iff needs shorter moved).mpr some

/-- What holds of the tokens of items, in terms of the items. -/
theorem forall_lay_iff {P : Token → Prop} {Q : Item → Prop}
    (each : ∀ item rest a, input.drop a = Item.print item ++ rest → (P (item.token a) ↔ Q item))
    (written : input.drop a = print items) :
    (∀ t ∈ lay a items, P t) ↔ ∀ item ∈ items, Q item := by
  induction items generalizing a with
  | nil => simp [lay]
  | cons item items ih =>
      have split : input.drop a = item.print ++ print items := written
      rw [lay, List.forall_mem_cons, List.forall_mem_cons, each item _ a split,
        ih (drop_written split)]

theorem accepts_lay_iff (short : input.length ≤ 65535) (written : input.drop a = print items) :
    Accepts input config (lay a items) ↔ Accepted config items := by
  have readable := forall_lay_iff (P := fun t => t.Readable input) (Q := Item.Readable)
    (fun _ _ _ split => readable_token_iff short split) written
  have permitted := forall_lay_iff (P := fun t => t.Permitted config)
    (Q := fun item => item.Permitted config)
    (fun item _ _ _ => by cases item <;> exact Iff.rfl) written
  constructor
  · intro accepts
    exact ⟨length_lay a items ▸ accepts.few, readable.mp accepts.readable,
      permitted.mp accepts.permitted, lay_kinds a items ▸ accepts.styles⟩
  · intro accepted
    exact ⟨(length_lay a items).symm ▸ accepted.few, readable.mpr accepted.readable,
      permitted.mpr accepted.permitted, (lay_kinds a items).symm ▸ accepted.styles⟩

/-- Parsing a text that was written: it is accepted if its items are, and read as they lie. -/
theorem parse_print {p : ParsedPattern} (short : (print items).length ≤ 65535)
    (h : WellFormed items) :
    parse (print items) config = .ok p ↔
      Accepted config items ∧ p = ⟨segmentsFrom (print items) 0 (lay 0 items), print items⟩ := by
  rw [parse_iff_accepts, tokens_of_items (by omega) h]
  have accepts : Accepts (print items) config (lay 0 items) ↔ Accepted config items :=
    accepts_lay_iff short rfl
  constructor
  · intro parsed
    obtain ⟨ts, same, ok, rfl⟩ := parsed
    cases same
    exact ⟨accepts.mp ok, rfl⟩
  · intro both
    obtain ⟨ok, rfl⟩ := both
    exact ⟨_, rfl, accepts.mpr ok, rfl⟩

def ReadAs (text : Bytes) (items : List Item) : Prop := WellFormed items ∧ print items = text

/-- No text has two readings. -/
theorem ReadAs.unique {items' : List Item} (h : ReadAs input items) (short : input.length < 2 ^ 32)
    (h' : ReadAs input items') : items = items' := by
  obtain ⟨wellFormed, rfl⟩ := h
  exact print_injective short wellFormed h'.1 h'.2.symm

/-- An accepted text was written from items that are accepted. -/
theorem items_of_parse {p : ParsedPattern} (short : input.length ≤ 65535)
    (h : parse input config = .ok p) :
    ∃ items, ReadAs input items ∧ Accepted config items ∧
      p = ⟨segmentsFrom input 0 (lay 0 items), input⟩ := by
  obtain ⟨ts, scanned, accepts, _⟩ := parse_iff_accepts.mp h
  obtain ⟨items, wellFormed, rfl, rfl⟩ := items_of_tokens (by omega) accepts.few scanned
  obtain ⟨accepted, same⟩ := (parse_print short wellFormed).mp h
  exact ⟨items, ⟨wellFormed, rfl⟩, accepted, same⟩

/-- The pattern language is unambiguous, and `parse` accepts exactly its texts: those with one
reading as items that the configuration allows. -/
theorem accepted_iff_one_reading (input : Bytes) (config : ParseConfig)
    (short : input.length ≤ 65535) :
    (∃ p, parse input config = .ok p) ↔
      ∃! items, ReadAs input items ∧ Accepted config items := by
  constructor
  · intro h
    obtain ⟨p, parsed⟩ := h
    obtain ⟨items, reads, accepted, _⟩ := items_of_parse short parsed
    refine ⟨items, ⟨reads, accepted⟩, ?_⟩
    intro items' other
    obtain ⟨reads', _⟩ := other
    exact (reads.unique (by omega) reads').symm
  · intro h
    obtain ⟨items, ⟨⟨wellFormed, rfl⟩, accepted⟩, _⟩ := h
    exact ⟨_, (parse_print short wellFormed).mpr ⟨accepted, rfl⟩⟩

/-- `%fgo` is a file and two letters, as no word ends after `fg`. -/
theorem accepted_iff_one_reading_sample :
    ∃! items, ReadAs (str "%fgo %%%L\x7bupper\x7d%fg\x7bred\x7d%style:end") items ∧
      Accepted { } items := by
  have accepted : ∃ p, parse (str "%fgo %%%L\x7bupper\x7d%fg\x7bred\x7d%style:end") { } = .ok p :=
    Option.isSome_iff_exists.mp (by decide +kernel) |>.imp fun _ => toOption_eq_some.mp
  exact (accepted_iff_one_reading _ _ (by decide +kernel)).mp accepted

end Acceptance

end Logrin.Pattern
