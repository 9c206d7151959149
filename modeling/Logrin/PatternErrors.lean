import Logrin.PatternReading

/-!
What `parse` reports. Every text is read as items and an ending: its end, a `%` that begins no
directive, or a block that is not closed. A check goes over the items and the ending, and `parse`
accepts the text if the check finds nothing to complain about, and returns its first complaint
otherwise.
-/

namespace Logrin.Pattern
open Logrin.Library

/-- Where the reading of a text stops. -/
inductive Ending where
  | complete
  | unknown (spec : UInt8)
  | unterminated (kind : SegmentKind)
  deriving DecidableEq

/-- What is left of the text there. -/
def Ending.Begins (tail : Bytes) : Ending → Prop
  | .complete => tail = []
  | .unknown spec =>
      ∃ rest, tail = ch '%' :: spec :: rest ∧ spec ≠ ch '%' ∧ letterKind spec = none ∧
        ∀ kind, ¬ KeywordAt kind (spec :: rest)
  | .unterminated kind =>
      ∃ rest, tail = ch '%' :: kind.name ++ ch '{' :: rest ∧ NameStands kind (ch '{' :: rest) ∧
        ∀ body after, ch '{' :: rest = printBlock (some body) ++ after →
          ¬ Balances (printBlock (some body))

/-- The items can be read off one after the other, before `tail`. -/
def StandBefore (tail : Bytes) : List Item → Prop
  | [] => True
  | item :: items => item.Stands (print items ++ tail) ∧ StandBefore tail items

/-- The text is read as the items up to the ending. -/
structure ReadsTo (text : Bytes) (items : List Item) (ending : Ending) (tail : Bytes) : Prop where
  written : text = print items ++ tail
  stand : StandBefore tail items
  apart : items.IsChain fun x y => ¬ (x.isLiteral ∧ y.isLiteral)
  begins : ending.Begins tail

def tooMany : Error := ⟨str "pattern exceeds maximum segment count (64)"⟩

def unknownDirective (spec : UInt8) : Error :=
  ⟨str "unknown format directive: [%" ++ [spec] ++ str "]"⟩

def notAllowed (kind : SegmentKind) : Error :=
  ⟨str "segment [" ++ kind.toString ++ str "] is not allowed"⟩

def unterminatedBlock : Error := ⟨str "unterminated `\x7b' in format directive"⟩

def unmatchedEnd : Error := ⟨str "`%style:end` with no matching style directive"⟩

def unclosed (depth : Nat) : Error :=
  ⟨str "pattern has " ++ decimal depth ++
    str " unclosed style directive(s); missing `%style:end`"⟩

/-- What is read of a block. -/
def checkBlock (kind : SegmentKind) : Option Bytes → Except Error (Option Directive)
  | none => .ok none
  | some body => (Directive.parse body 0 kind).map some

/-- The complaints about an item after `count` others that leave `depth` styles open, in the order
in which they are made; without one, the styles open after it. -/
def Item.check (config : ParseConfig) (count depth : Nat) : Item → Except Error Nat
  | .literal _ | .percent => if 64 ≤ count then .error tooMany else .ok depth
  | .directive kind block =>
      if allowed config kind then do
        let directive ← checkBlock kind block
        requireSpec kind directive
        if kind = .styleEnd ∧ depth = 0 ∧ config.relaxedStyleNesting = false then
          .error unmatchedEnd
        else if 64 ≤ count then .error tooMany
        else .ok (nest depth kind)
      else .error (notAllowed kind)

/-- The complaints about an ending with `depth` styles open. -/
def Ending.check (config : ParseConfig) (depth : Nat) : Ending → Except Error Unit
  | .complete =>
      if depth ≠ 0 ∧ config.relaxedStyleNesting = false then .error (unclosed depth) else .ok ()
  | .unknown spec => .error (unknownDirective spec)
  | .unterminated kind =>
      .error (if allowed config kind then unterminatedBlock else notAllowed kind)

def report (config : ParseConfig) (ending : Ending) (count depth : Nat) :
    List Item → Except Error Unit
  | [] => ending.check config depth
  | item :: items => do
      let depth ← item.check config count depth
      report config ending (count + 1) depth items

variable {input text body rest tail : Bytes} {config : ParseConfig} {kind : SegmentKind}
  {item : Item} {items : List Item} {ending : Ending} {st : Scan}
  {pos nameEnd count depth n fuel : Nat}

section Blocks

/-- Blocks that are alike but for the offset of the specification. -/
def SameSpec (d d' : Directive) : Prop := d.hasSpecification = d'.hasSpecification

theorem parsePadding_agree (s : Bytes) (d : Directive) (o : UInt16) :
    Agree SameSpec (parsePadding s d) (parsePadding s { d with specOffset := o }) := by
  have head : parseAlignment s { d with specOffset := o } =
      ({ (parseAlignment s d).1 with specOffset := o }, (parseAlignment s d).2) := by
    simp only [parseAlignment]
    split
    · rfl
    · split
      · rfl
      · split <;> rfl
  simp only [parsePadding, head]
  split
  · rfl
  · refine Agree.bind (agree_refl (R := Eq) (fun _ => rfl) _) ?_
    intro width _ same
    cases same
    split
    · rfl
    · split <;> rfl

/-- A block is read the same wherever it stands. -/
theorem parse_agree (body : Bytes) (offset : Nat) (kind : SegmentKind) :
    Agree SameSpec (Directive.parse body offset kind) (Directive.parse body 0 kind) := by
  simp only [Directive.parse]
  split
  · rfl
  · split
    · rfl
    · split
      · rfl
      · exact agree_refl (R := SameSpec) (fun _ => rfl) _
      · split
        · split
          · exact agree_refl (R := SameSpec) (fun _ => rfl) _
          · rfl
        · split
          · exact agree_refl (R := SameSpec) (fun _ => rfl) _
          · exact parsePadding_agree _ _ _

theorem requireSpec_congr {d d' : Option Directive}
    (same : d.map Directive.hasSpecification = d'.map Directive.hasSpecification) :
    requireSpec kind d = requireSpec kind d' := by
  simp only [requireSpec, same]

theorem nestStyle_agree (config : ParseConfig) (kind : SegmentKind) (depth : UInt8)
    (small : depth.toNat < 255) :
    Agree (fun d n => d.toNat = n ∧ n ≤ depth.toNat + 1) (nestStyle config kind depth)
      (if kind = .styleEnd ∧ depth.toNat = 0 ∧ config.relaxedStyleNesting = false then
        .error unmatchedEnd
      else .ok (nest depth.toNat kind)) := by
  have zero : depth.toNat = 0 ↔ depth = 0 := UInt8.toNat_inj (b := 0)
  cases nested : nestStyle config kind depth with
  | ok d =>
      have allowed_ := ((nestStyle_eq_ok small).mp nested).1
      rw [if_neg]
      · exact ⟨nestStyle_toNat nested small, nest_le _ _⟩
      · intro refused
        obtain ⟨stop, closed, strict⟩ := refused
        simp [stop, closed, strict] at allowed_
  | error e =>
      simp only [nestStyle] at nested
      split at nested
      · cases nested
      · split at nested
        · next stop =>
            split at nested
            · next closed =>
                split at nested
                · cases nested
                · next strict =>
                    rw [if_pos ⟨stop, zero.mpr closed, by simpa using strict⟩]
                    cases nested
                    rfl
            · cases nested
        · cases nested

end Blocks

section Steps

/-- The loop between two items, `count` of which lie behind it. -/
structure Scan.Between (pos count depth : Nat) (st : Scan) : Prop where
  here : st.pos = pos
  idle : st.inLiteral = false
  counted : st.segments.length = count
  room : count ≤ 64
  styles : st.depth.toNat = depth
  bound : depth ≤ count

theorem flush_idle {stop : Nat} (idle : st.inLiteral = false) : flushLiteral st stop = .ok st := by
  obtain ⟨_, _, _, _, _⟩ := st
  cases idle
  rfl

/-- Adding a segment fails when there are 64. -/
theorem Scan.Between.push {styles : UInt8} {open_ : Nat} (h : st.Between pos count depth)
    (stop : Nat) (segment : Segment) (same : styles.toNat = open_) (bound : open_ ≤ depth + 1) :
    Agree (fun st d => st.Between stop (count + 1) d)
      ({ st with pos := stop, depth := styles, literalStart := stop }.push segment)
      (if 64 ≤ count then .error tooMany else .ok open_) := by
  obtain ⟨_, idle, rfl, _, _, small⟩ := h
  simp only [Scan.push]
  split
  · rfl
  · next room =>
      exact ⟨rfl, idle, List.length_append, Nat.lt_of_not_le room, same, by omega⟩

/-- No name is read where neither a keyword nor a letter with a meaning stands. -/
theorem readName_eq_none :
    readName input pos = none ↔
      input.getD (pos + 1) 0 ≠ ch '%' ∧ letterKind (input.getD (pos + 1) 0) = none ∧
        ∀ kind, ¬ KeywordAt kind (input.drop (pos + 1)) := by
  simp only [readName]
  split
  · next found =>
      constructor
      · intro h
        cases h
      · intro h
        exact absurd (keywordAt_of_match found) (h.2.2 _)
  · next absent =>
      have keywords : ∀ kind, ¬ KeywordAt kind (input.drop (pos + 1)) :=
        fun kind keyword => absent keyword.found
      split
      · next percent => exact iff_of_false (Option.some_ne_none _) fun h => h.1 percent
      · next other =>
          rw [Option.map_eq_none_iff]
          exact ⟨fun letter => ⟨other, letter, keywords⟩, fun h => h.2.1⟩

theorem parsePercent_eq (input : Bytes) (config : ParseConfig) (len : Nat) (st : Scan) :
    parsePercent input config len st =
      match readName input st.pos with
      | none => .error (unknownDirective (input.getD (st.pos + 1) 0))
      | some (none, stop) => parseEscape { st with pos := stop }
      | some (some kind, stop) => parseDirective input config len kind { st with pos := stop } := by
  simp only [parsePercent, readName]
  split
  · rfl
  · split
    · rfl
    · cases letterKind (input.getD (st.pos + 1) 0) with
      | none => rfl
      | some kind => rfl

theorem parseBlock_eq (input : Bytes) (len pos : Nat) (kind : SegmentKind) :
    parseBlock input len pos kind =
      match readBlock input len pos with
      | none => .error unterminatedBlock
      | some none => .ok (none, pos)
      | some (some stop) =>
          Directive.parse (slice input (pos + 1) (stop - 1)) (pos + 1) kind >>= fun d =>
            .ok (some d, stop) := by
  simp only [parseBlock, readBlock]
  split
  · split
    · rfl
    · rfl
  · rfl

theorem parseStep_percent (h : st.Between pos count depth) (first : input.getD pos 0 = ch '%')
    (more : pos + 1 < input.length) :
    parseStep input config input.length st = parsePercent input config input.length st := by
  have skip : ¬ (input.getD st.pos 0 ≠ ch '%' || decide (input.length ≤ st.pos + 1)) = true := by
    simp only [h.here, first, ne_eq, not_true, decide_false, Bool.false_or, decide_eq_true_eq]
    exact Nat.not_le_of_lt more
  rw [parseStep, if_neg skip, flush_idle h.idle, ok_bind]

theorem parseBlock_agree {block : Option Bytes}
    (written : input.drop pos = (Item.directive kind block).print ++ rest)
    (read : readBlock input input.length (pos + 1 + kind.name.length) =
      some (block.map fun body => pos + 1 + kind.name.length + (body.length + 2))) :
    Agree (fun r d => r.1.map Directive.hasSpecification = d.map Directive.hasSpecification ∧
        r.2 = pos + (Item.directive kind block).print.length)
      (parseBlock input input.length (pos + 1 + kind.name.length) kind)
      (checkBlock kind block) := by
  rw [parseBlock_eq, read]
  cases block with
  | none =>
      refine ⟨rfl, ?_⟩
      simp [Item.print, printBlock]
      omega
  | some body =>
      simp only [Option.map_some, body_written written]
      refine (parse_agree body _ kind).bind ?_
      intro d d' same
      refine ⟨congrArg some same, ?_⟩
      simp [Item.print, printBlock]
      omega

/-- The iteration at an item that is not literal makes the checks of the item. -/
theorem item_agree (short : input.length < 2 ^ 32) (h : st.Between pos count depth)
    (written : input.drop pos = item.print ++ rest) (stands : item.Stands rest)
    (other : item.isLiteral = false) :
    Agree (fun st d => st.Between (pos + item.print.length) (count + 1) d)
      (parseStep input config input.length st) (item.check config count depth) := by
  obtain ⟨stop, ends⟩ : ∃ stop, stop = pos + item.print.length := ⟨_, rfl⟩
  have lies : TokenAt input input.length pos stop (item.token pos) :=
    (tokenAt_iff short).mpr ⟨item, rest, written, stands, rfl, ends⟩
  cases item with
  | literal text => cases other
  | percent =>
      cases lies with
      | escape first more second =>
          rw [parseStep_percent h first more, parsePercent_eq, h.here,
            readName_percent more second]
          exact h.push (pos + 2) _ h.styles (Nat.le_succ depth)
  | directive kind block =>
      cases lies with
      | directive first more name read =>
          rw [parseStep_percent h first more, parsePercent_eq, h.here, name]
          simp only [parseDirective, Item.check, allowed_eq_not]
          by_cases refused :
              (!config.allowedSegments.isEmpty && kind ∉ config.allowedSegments) = true
          · simp only [if_pos refused]
            simp only [refused, Bool.not_true, Bool.false_eq_true, if_false]
            rfl
          · simp only [if_neg refused]
            simp only [Bool.not_eq_true _ ▸ refused, Bool.not_false, if_true]
            refine (parseBlock_agree written read).bind ?_
            intro r d both
            obtain ⟨same, after⟩ := both
            simp only [requireSpec_congr same]
            refine (agree_refl (R := fun _ _ => True) (fun _ => trivial) _).bind ?_
            intro _ _ _
            have nested := nestStyle_agree config kind st.depth (by
              have := h.styles
              have := h.bound
              have := h.room
              omega)
            rw [h.styles] at nested
            have split : (if kind = .styleEnd ∧ depth = 0 ∧ config.relaxedStyleNesting = false then
                .error unmatchedEnd
              else if 64 ≤ count then .error tooMany
              else .ok (nest depth kind) : Except Error Nat) =
              (if kind = .styleEnd ∧ depth = 0 ∧ config.relaxedStyleNesting = false then
                .error unmatchedEnd else .ok (nest depth kind)) >>= fun d =>
                if 64 ≤ count then .error tooMany else .ok d := by
              split
              · rfl
              · rfl
            rw [split]
            refine nested.bind ?_
            intro styles open_ counted
            rw [← ends, after, ← ends]
            exact h.push _ _ counted.1 counted.2

/-- An iteration over a byte that belongs to a literal run. -/
theorem whileLoop_byte (inside : st.pos < input.length)
    (plain : input.getD st.pos 0 = ch '%' → input.length ≤ st.pos + 1) :
    whileLoop (fun st => st.pos < input.length) (parseStep input config input.length)
        (fuel + 1) st =
      whileLoop (fun st => st.pos < input.length) (parseStep input config input.length) fuel
        { st with
          pos := st.pos + 1
          literalStart := if st.inLiteral then st.literalStart else st.pos
          inLiteral := true } := by
  have skip : (input.getD st.pos 0 ≠ ch '%' || decide (input.length ≤ st.pos + 1)) = true := by
    by_cases percent : input.getD st.pos 0 = ch '%'
    · simp [plain percent]
    · simp only [ne_eq, percent, not_false_eq_true, decide_true, Bool.true_or]
  rw [whileLoop, if_pos (decide_eq_true inside), parseStep, if_pos skip, ok_bind]

theorem whileLoop_plain (inside : st.pos + (n + 1) ≤ input.length)
    (plain : ∀ j, st.pos ≤ j → j < st.pos + (n + 1) → input.getD j 0 = ch '%' →
      input.length ≤ j + 1) :
    whileLoop (fun st => st.pos < input.length) (parseStep input config input.length)
        (n + 1 + fuel) st =
      whileLoop (fun st => st.pos < input.length) (parseStep input config input.length) fuel
        { st with
          pos := st.pos + (n + 1)
          literalStart := if st.inLiteral then st.literalStart else st.pos
          inLiteral := true } := by
  induction n generalizing st with
  | zero =>
      rw [Nat.zero_add, Nat.add_comm,
        whileLoop_byte inside (plain st.pos (Nat.le_refl _) (Nat.lt_succ_self _))]
  | succ n ih =>
      rw [Nat.succ_add (n + 1), whileLoop_byte (by omega) (plain st.pos (Nat.le_refl _) (by omega)),
        ih (by simp only; omega)]
      · simp only [if_true, Nat.add_assoc, Nat.add_comm 1]
      · intro j low high
        exact plain j (by simp only at low; omega) (by simp only at high; omega)

end Steps

section Runs

/-- The rest of `parse` from a state of its loop. -/
def finish (input : Bytes) (config : ParseConfig) (fuel : Nat) (st : Scan) : Except Error Unit := do
  let st ← whileLoop (fun st => st.pos < input.length) (parseStep input config input.length) fuel st
  let st ← flushLiteral st input.length
  checkNesting config st.depth

theorem finish_step (inside : st.pos < input.length) :
    finish input config (fuel + 1) st =
      parseStep input config input.length st >>= finish input config fuel := by
  simp only [finish, whileLoop, decide_eq_true inside, if_true, bind_assoc]
  rfl

theorem finish_end (done : input.length ≤ st.pos) :
    finish input config fuel st =
      flushLiteral st input.length >>= fun st => checkNesting config st.depth := by
  have stop : ¬ decide (st.pos < input.length) = true := by
    simpa using done
  cases fuel with
  | zero => rfl
  | succ fuel =>
      rw [finish, whileLoop, if_neg stop]
      rfl

/-- The flush of a literal run that is not empty makes the checks of a literal. -/
theorem flush_agree (h : st.Between pos count depth) {start stop : Nat}
    (long : start < stop) :
    Agree (fun st d => st.Between stop (count + 1) d)
      (flushLiteral { st with pos := stop, literalStart := start, inLiteral := true } stop)
      ((Item.literal text).check config count depth) := by
  obtain ⟨_, _, rfl, _, same, bound⟩ := h
  simp only [flushLiteral, long, decide_true, Bool.and_self, if_true, Scan.push, Item.check]
  split
  · rfl
  · next room =>
      exact ⟨rfl, rfl, List.length_append, Nat.lt_of_not_le room, same, Nat.le_succ_of_le bound⟩

theorem flush_ok {st' : Scan} {stop : Nat} (h : flushLiteral st stop = .ok st') :
    st'.pos = st.pos ∧ st'.inLiteral = false := by
  simp only [flushLiteral, Scan.push] at h
  split at h
  · split at h
    · cases h
    · cases h
      exact ⟨rfl, rfl⟩
  · cases h
    exact ⟨rfl, rfl⟩

/-- A literal run is flushed before anything else happens. -/
theorem finish_flush
    (stops : st.pos = input.length ∨
      input.getD st.pos 0 = ch '%' ∧ st.pos + 1 < input.length ∧ fuel ≠ 0) :
    finish input config fuel st = flushLiteral st st.pos >>= finish input config fuel := by
  obtain done | ⟨first, more, enough⟩ := stops
  · rw [finish_end (Nat.le_of_eq done.symm), ← done]
    cases flushed : flushLiteral st st.pos with
    | error e => rfl
    | ok st' =>
        obtain ⟨same, idle⟩ := flush_ok flushed
        rw [ok_bind, ok_bind, finish_end (by omega), flush_idle idle, ok_bind]
  · obtain ⟨fuel, rfl⟩ := Nat.exists_eq_succ_of_ne_zero enough
    have skip : ¬ (input.getD st.pos 0 ≠ ch '%' || decide (input.length ≤ st.pos + 1)) = true := by
      simp only [first, ne_eq, not_true, decide_false, Bool.false_or, decide_eq_true_eq]
      exact Nat.not_le_of_lt more
    rw [finish_step (Nat.lt_of_succ_lt more), parseStep, if_neg skip]
    cases flushed : flushLiteral st st.pos with
    | error e => rfl
    | ok st' =>
        obtain ⟨same, idle⟩ := flush_ok flushed
        rw [ok_bind, ok_bind, finish_step (by omega), parseStep, same, if_neg skip,
          flush_idle idle, ok_bind]

/-- Where no item begins the loop stops with the complaint of the ending. -/
theorem ending_agree (short : input.length < 2 ^ 32) (h : st.Between pos count depth)
    (written : input.drop pos = tail) (begins : ending.Begins tail)
    (enough : input.length ≤ pos + fuel) :
    Agree (fun _ _ => True) (finish input config fuel st) (ending.check config depth) := by
  cases ending with
  | complete =>
      have done : input.length ≤ st.pos := by
        rw [h.here]
        exact List.drop_eq_nil_iff.mp (written.trans begins)
      have zero : st.depth = 0 ↔ depth = 0 := by
        rw [← h.styles]
        exact UInt8.toNat_inj.symm
      rw [finish_end done, flush_idle h.idle, ok_bind]
      simp only [checkNesting, Ending.check, ne_eq, zero, h.styles, Bool.and_eq_true,
        decide_eq_true_eq, Bool.not_eq_true']
      exact agree_refl (R := fun _ _ => True) (fun _ => trivial) _
  | unknown spec =>
      obtain ⟨rest, rfl, other, letter, none⟩ := begins
      have more := @length_written _ [ch '%', spec] rest _ written (by simp)
      have second : input.getD (pos + 1) 0 = spec :=
        @getD_written _ [ch '%', spec] rest _ written 1
      have after : input.drop (pos + 1) = spec :: rest :=
        @drop_written _ [ch '%'] (spec :: rest) _ written
      have name : readName input pos = Option.none :=
        readName_eq_none.mpr (by rw [second, after]; exact ⟨other, letter, none⟩)
      simp only [List.length_cons, List.length_nil] at more
      obtain ⟨fuel, rfl⟩ := Nat.exists_eq_succ_of_ne_zero (n := fuel) (by omega)
      rw [finish_step (by rw [h.here]; omega),
        parseStep_percent h (@getD_written _ [ch '%'] (spec :: rest) _ written 0) (by omega),
        parsePercent_eq, h.here, name, second]
      rfl
  | unterminated kind =>
      obtain ⟨rest, rfl, stands, open_⟩ := begins
      have head : input.drop pos = ch '%' :: (kind.name ++ ch '{' :: rest) := by
        rw [written]
        simp
      have after : input.drop (pos + 1) = kind.name ++ ch '{' :: rest :=
        @drop_written _ [ch '%'] _ _ head
      have more := length_written after (List.length_pos_of_ne_nil stands.name_ne_nil)
      have long := List.length_pos_of_ne_nil stands.name_ne_nil
      have name : readName input pos = some (some kind, pos + 1 + kind.name.length) :=
        (readName_iff short (by omega)).mpr ⟨_, after, stands, rfl⟩
      have read : readBlock input input.length (pos + 1 + kind.name.length) = none := by
        apply Option.eq_none_iff_forall_ne_some.mpr
        intro block read
        obtain ⟨_, other⟩ | ⟨body, after', block, balances, _⟩ := readBlock_iff.mp read
        · rw [drop_written after] at other
          exact other rfl
        · rw [drop_written after] at block
          exact open_ body after' block balances
      obtain ⟨fuel, rfl⟩ := Nat.exists_eq_succ_of_ne_zero (n := fuel) (by omega)
      rw [finish_step (by rw [h.here]; omega),
        parseStep_percent h (@getD_written _ [ch '%'] _ _ head 0) (by omega), parsePercent_eq,
        h.here, name]
      simp only [parseDirective, Ending.check, allowed_eq_not]
      by_cases refused :
          (!config.allowedSegments.isEmpty && kind ∉ config.allowedSegments) = true
      · simp only [if_pos refused]
        simp only [refused, Bool.not_true, Bool.false_eq_true, if_false]
        rfl
      · simp only [if_neg refused, parseBlock_eq, read]
        simp only [Bool.not_eq_true _ ▸ refused, Bool.not_false, if_true]
        rfl

/-- After a literal, the text ends or a directive is looked for. -/
theorem percent_of_other (stand : StandBefore tail items) (begins : ending.Begins tail)
    (other : ∀ item ∈ items.head?, item.isLiteral = false) :
    print items ++ tail = [] ∨ ∃ c rest, print items ++ tail = ch '%' :: c :: rest := by
  have named : ∀ {kind rest rest'}, NameStands kind rest →
      ∃ c more, ch '%' :: kind.name ++ rest' = ch '%' :: c :: more := by
    intro kind rest rest' stands
    obtain ⟨c, name, same⟩ := List.exists_cons_of_ne_nil stands.name_ne_nil
    exact ⟨c, name ++ rest', by rw [same]; rfl⟩
  cases items with
  | nil =>
      cases ending with
      | complete => exact .inl begins
      | unknown spec =>
          obtain ⟨rest, rfl, _⟩ := begins
          exact .inr ⟨_, _, rfl⟩
      | unterminated kind =>
          obtain ⟨rest, rfl, stands, _⟩ := begins
          exact .inr (named stands)
  | cons item items =>
      cases item with
      | literal text => cases other _ rfl
      | percent => exact .inr ⟨_, _, rfl⟩
      | directive kind block =>
          have whole : print (Item.directive kind block :: items) ++ tail =
              ch '%' :: kind.name ++ (printBlock block ++ (print items ++ tail)) := by
            simp [print, Item.print]
          rw [whole]
          exact .inr (named stand.1.name)

/-- The loop makes the checks of the items, one after the other. -/
theorem finish_agree (short : input.length < 2 ^ 32) (h : st.Between pos count depth)
    (written : input.drop pos = print items ++ tail) (stand : StandBefore tail items)
    (apart : items.IsChain fun x y => ¬ (x.isLiteral ∧ y.isLiteral))
    (begins : ending.Begins tail) (enough : input.length ≤ pos + fuel) :
    Agree (fun _ _ => True) (finish input config fuel st)
      (report config ending count depth items) := by
  induction items generalizing st pos count depth fuel with
  | nil => exact ending_agree short h written begins enough
  | cons item items ih =>
      obtain ⟨stands, others⟩ := stand
      have split : input.drop pos = item.print ++ (print items ++ tail) := by
        rw [written, print, List.flatMap_cons, List.append_assoc]
        rfl
      have size := length_written split stands.filled
      have filled := stands.filled
      have next : ∀ {st' : Scan} {d fuel' : Nat},
          st'.Between (pos + item.print.length) (count + 1) d →
          input.length ≤ pos + item.print.length + fuel' →
          Agree (fun _ _ => True) (finish input config fuel' st')
            (report config ending (count + 1) d items) := fun between enough' =>
        ih between (drop_written split) others (List.isChain_cons.mp apart).2 enough'
      by_cases literal : item.isLiteral = true
      · cases item with
        | percent | directive => cases literal
        | literal text =>
            obtain ⟨some, fits, plain⟩ := plainRun_iff.mpr ⟨text, _, split, stands, rfl⟩
            obtain ⟨n, long⟩ := Nat.exists_eq_succ_of_ne_zero (Nat.pos_iff_ne_zero.mp filled)
            simp only [Item.print] at long size next
            obtain ⟨fuel, rfl⟩ : ∃ fuel', fuel = n + 1 + fuel' :=
              Nat.exists_eq_add_of_le (by omega)
            have run : finish input config (n + 1 + fuel) st = finish input config fuel
                { st with pos := pos + text.length, literalStart := pos, inLiteral := true } := by
              obtain ⟨rfl, idle, _, _, _, _⟩ := h
              rw [finish, whileLoop_plain (by omega)]
              · simp only [idle, Bool.false_eq_true, if_false, ← Nat.succ_eq_add_one, ← long]
                rfl
              · intro j low high
                exact plain j low (by omega)
            rw [run, finish_flush]
            · refine (flush_agree h some).bind ?_
              intro st' d between
              exact next between (by omega)
            · have rest : input.drop (pos + text.length) = print items ++ tail := drop_written split
              have other : ∀ item ∈ items.head?, item.isLiteral = false := by
                intro item member
                simpa [literal] using (List.isChain_cons.mp apart).1 item member
              obtain none | ⟨c, more, percent⟩ := percent_of_other others begins other
              · exact .inl (Nat.le_antisymm fits (List.drop_eq_nil_iff.mp (rest.trans none)))
              · rw [percent] at rest
                have two := @length_written _ [ch '%', c] more _ rest (by simp)
                simp only [List.length_cons, List.length_nil] at two
                exact .inr ⟨@getD_written _ [ch '%'] _ _ rest 0, by simp only; omega, by omega⟩
      · obtain ⟨fuel, rfl⟩ := Nat.exists_eq_succ_of_ne_zero (n := fuel) (by omega)
        rw [finish_step (by rw [h.here]; omega)]
        refine (item_agree short h split stands (Bool.not_eq_true _ ▸ literal)).bind ?_
        intro st' d between
        exact next between (by omega)

end Runs

section Readings

theorem ReadsTo.cons (h : ReadsTo rest items ending tail) (stands : item.Stands rest)
    (other : item.isLiteral = false) :
    ReadsTo (item.print ++ rest) (item :: items) ending tail := by
  obtain ⟨rfl, stand, apart, begins⟩ := h
  have chain : (item :: items).IsChain fun x y => ¬ (x.isLiteral ∧ y.isLiteral) :=
    List.isChain_cons.mpr ⟨fun _ _ both => by simp [other] at both, apart⟩
  exact ⟨(List.append_assoc _ _ _).symm, ⟨stands, stand⟩, chain, begins⟩

/-- A byte that begins no directive belongs to a literal. -/
theorem ReadsTo.byte {c : UInt8} (h : ReadsTo rest items ending tail)
    (plain : c = ch '%' → rest = []) : ∃ items, ReadsTo (c :: rest) items ending tail := by
  obtain ⟨rfl, stand, apart, begins⟩ := h
  have alone : (Item.literal [c]).Stands (print items ++ tail) := by
    refine ⟨List.cons_ne_nil _ _, ?_⟩
    intro j inside percent
    obtain rfl : j = 0 := by simpa using inside
    exact ⟨rfl, plain percent⟩
  cases items with
  | nil => exact ⟨[.literal [c]], rfl, ⟨alone, trivial⟩, .singleton _, begins⟩
  | cons item items =>
      cases item with
      | percent | directive =>
          refine ⟨.literal [c] :: _, rfl, ⟨alone, stand⟩, List.isChain_cons.mpr ⟨?_, apart⟩, begins⟩
          intro item first both
          cases first
          simp [Item.isLiteral] at both
      | literal text =>
          obtain ⟨⟨some, run⟩, others⟩ := stand
          refine ⟨.literal (c :: text) :: items, rfl, ⟨⟨List.cons_ne_nil _ _, ?_⟩, others⟩, ?_,
            begins⟩
          · intro j inside percent
            cases j with
            | zero =>
                have empty := plain percent
                simp [print, Item.print, some] at empty
            | succ j =>
                obtain ⟨last, none⟩ := run j (Nat.lt_of_succ_lt_succ inside) percent
                exact ⟨congrArg Nat.succ last, none⟩
          · obtain ⟨first, chain⟩ := List.isChain_cons.mp apart
            exact List.isChain_cons.mpr ⟨first, chain⟩

/-- After a `%` that is not the last byte a directive is read, or the reading stops. -/
theorem readsTo_percent (short : text.length < 2 ^ 32) (first : text.getD 0 0 = ch '%')
    (more : 1 < text.length) :
    (∃ ending, ReadsTo text [] ending text) ∨
      ∃ item rest, text = Item.print item ++ rest ∧ item.Stands rest ∧ item.isLiteral = false := by
  have nothing : ∀ {ending : Ending}, ending.Begins text → ReadsTo text [] ending text :=
    fun begins => ⟨rfl, trivial, .nil, begins⟩
  have head : text = ch '%' :: text.drop 1 := by
    rw [← first]
    exact head_drop text (Nat.zero_lt_of_lt more)
  have item : ∀ {b t}, TokenAt text text.length 0 b t → t.isLiteral = false →
      ∃ item rest, text = Item.print item ++ rest ∧ item.Stands rest ∧ item.isLiteral = false := by
    intro b t lies other
    obtain ⟨item, rest, written, stands, rfl, _⟩ := (tokenAt_iff short).mp lies
    refine ⟨item, rest, written, stands, ?_⟩
    cases item with
    | literal => cases other
    | percent | directive => rfl
  cases name : readName text 0 with
  | none =>
      obtain ⟨other, letter, keywords⟩ := readName_eq_none.mp name
      refine .inl ⟨.unknown (text.getD 1 0), nothing ⟨text.drop 2, ?_, other, letter, ?_⟩⟩
      · rw [← head_drop text more]
        exact head
      · rw [← head_drop text more]
        exact keywords
  | some r =>
      obtain ⟨_ | kind, nameEnd⟩ := r
      · obtain ⟨rfl, second⟩ := readName_escape name
        exact .inr (item (.escape first more second) rfl)
      · cases read : readBlock text text.length nameEnd with
        | some block => exact .inr (item (.directive first more name read) rfl)
        | none =>
            obtain ⟨rest, written, stands, rfl⟩ := (readName_iff short more).mp name
            have after : text.drop (0 + 1 + kind.name.length) = rest := drop_written written
            have brace : rest.head? = some (ch '{') := by
              by_contra other
              rw [readBlock_iff.mpr (.inl ⟨rfl, by rwa [after]⟩)] at read
              cases read
            obtain ⟨rest, rfl⟩ := List.head?_eq_some_iff.mp brace
            refine .inl ⟨.unterminated kind, nothing ⟨rest, ?_, stands, ?_⟩⟩
            · rw [head, written]
              simp
            · intro body after' block balances
              rw [readBlock_iff.mpr (.inr ⟨body, after', by rwa [after], balances, rfl⟩)] at read
              cases read

/-- Every text can be read. -/
theorem readsTo_exists (text : Bytes) (short : text.length < 2 ^ 32) :
    ∃ items ending tail, ReadsTo text items ending tail := by
  obtain ⟨n, size⟩ : ∃ n, text.length = n := ⟨_, rfl⟩
  induction n using Nat.strong_induction_on generalizing text with
  | _ n ih =>
      subst size
      cases text with
      | nil => exact ⟨[], .complete, [], rfl, trivial, .nil, rfl⟩
      | cons c rest =>
          by_cases plain : c = ch '%' → rest = []
          · obtain ⟨items, ending, tail, reads⟩ :=
              ih rest.length (Nat.lt_succ_self _) rest (Nat.lt_of_succ_lt short) rfl
            obtain ⟨items, reads⟩ := reads.byte plain
            exact ⟨items, ending, tail, reads⟩
          · obtain ⟨percent, some⟩ := Classical.not_imp.mp plain
            have more := Nat.succ_lt_succ (List.length_pos_of_ne_nil some)
            obtain ⟨ending, stops⟩ | ⟨item, rest', written, stands, other⟩ :=
              readsTo_percent short percent more
            · exact ⟨[], ending, _, stops⟩
            · have filled := stands.filled
              have size := congrArg List.length written
              rw [List.length_append] at size
              obtain ⟨items, ending, tail, reads⟩ :=
                ih rest'.length (by omega) rest' (by omega) rfl
              exact ⟨item :: items, ending, tail, written ▸ reads.cons stands other⟩

/-- What `parse` reports about a text. -/
theorem parse_reports (input : Bytes) (config : ParseConfig) (short : input.length < 2 ^ 32) :
    (∃ items ending tail, ReadsTo input items ending tail) ∧
      ∀ items ending tail, ReadsTo input items ending tail →
        (parse input config).map (fun _ => ()) = report config ending 0 0 items := by
  refine ⟨readsTo_exists input short, ?_⟩
  intro items ending tail reads
  have start : Scan.start.Between 0 0 0 := ⟨rfl, rfl, rfl, Nat.zero_le 64, rfl, Nat.le_refl 0⟩
  have enough : input.length ≤ 0 + parseFuel input.length := by
    simp only [parseFuel]
    omega
  have agree : Agree _ (finish input config _ _) _ :=
    finish_agree short start reads.written reads.stand reads.apart reads.begins enough
  rw [← agree.map_eq]
  simp only [parse, finish, u32_of_lt short]
  cases whileLoop (fun st => st.pos < input.length) (parseStep input config input.length)
      (parseFuel input.length) Scan.start with
  | error e => rfl
  | ok st =>
      simp only [ok_bind]
      cases flushLiteral st input.length with
      | error e => rfl
      | ok st =>
          simp only [ok_bind]
          cases checkNesting config st.depth with
          | error e => rfl
          | ok => rfl

/-- The first complaint is about `%style:end`, before the `%q` and the block left open. -/
theorem parse_reports_sample :
    ∃ items ending tail, ReadsTo (str "a%style:end%q %m\x7b") items ending tail ∧
      report { } ending 0 0 items = .error unmatchedEnd := by
  have reports := parse_reports (str "a%style:end%q %m\x7b") { } (by decide +kernel)
  obtain ⟨items, ending, tail, reads⟩ := reports.1
  refine ⟨items, ending, tail, reads, ?_⟩
  rw [← reports.2 items ending tail reads]
  decide +kernel

end Readings

end Logrin.Pattern
