import WhenLoop.Proofs.Moves
import WhenLoop.Proofs.Scanning

/-!
# Reports are made in the order of the source

Every report is at an item of the scan or at the end token, and the reports of a parse are in the
order of the source.  This is not plain from how they are made.  A report may be at the current
token, at the token before it, or at a fault that lies between the two, and when the fault is
reported first, a report at the token before it would come too late.

What keeps the order is the panic.  A fault puts the parse into panic, and there nothing is
reported until it recovers.  After that nothing is reported at an earlier token until the parse
has stepped over another one.  `Fresh` says this, and it holds wherever the token before the
current one may be reported on.
-/

namespace WhenLoop

open State Lexical

/-! ## The order of positions -/

/-- Positions are ordered by line, and in a line by column. -/
instance : LE Position where
  le p q := p.line.toInt < q.line.toInt ∨
    p.line.toInt = q.line.toInt ∧ p.column.toInt ≤ q.column.toInt

namespace Position

theorem le_iff {p q : Position} : p ≤ q ↔ p.line.toInt < q.line.toInt ∨
    p.line.toInt = q.line.toInt ∧ p.column.toInt ≤ q.column.toInt := Iff.rfl

instance (p q : Position) : Decidable (p ≤ q) := decidable_of_iff' _ le_iff

theorem le_refl (p : Position) : p ≤ p := .inr ⟨rfl, Int.le_refl _⟩

theorem le_trans {p q r : Position} (h : p ≤ q) (h' : q ≤ r) : p ≤ r := by
  rw [le_iff] at *
  omega

/-- More text leads to a later position, if the text is not too long. -/
theorem behind_le {read text : List Char} (short : (read ++ text).length < 2147483647) :
    behind read ≤ behind (read ++ text) := by
  have shorter : read.length < 2147483647 := by
    rw [List.length_append] at short
    omega
  have before := toInt_behind shorter
  have after := toInt_behind short
  rw [le_iff, before.1, before.2, after.1, after.2, List.count_append, List.reverse_append]
  by_cases feed : '\n' ∈ text
  · have some := List.count_pos_iff.mpr feed
    omega
  · have plain : ∀ c ∈ text.reverse, (c != '\n') = true := by
      intro c mem
      rw [bne_iff_ne]
      rintro rfl
      exact feed (List.mem_reverse.mp mem)
    rw [List.takeWhile_append_of_pos plain, List.length_append, List.count_eq_zero.mpr feed]
    omega

end Position

/-! ## The items of a text are in order -/

/-- Where an item is: a token where its text starts, and a fault where it is reported. -/
def Item.position? : Item → Option Position
  | .token t => some t.start
  | .fault found => found.position?

/-- The position of an item that has one. -/
def Item.mark (item : Item) : Position := item.position?.getD .start

theorem Item.mark_of_some {item : Item} {p : Position} (h : item.position? = some p) :
    item.mark = p := by
  rw [mark, h, Option.getD_some]

/-- An item lies between the ends of its text. -/
theorem Lexical.Describes.position {read text after : List Char} {item : Item}
    (h : Describes read text after item) (short : (read ++ text).length < 2147483647) :
    ∃ p, item.position? = some p ∧ .behind read ≤ p ∧ p ≤ .behind (read ++ text) := by
  have le := Position.behind_le short
  cases h with
  | token _ _ => exact ⟨_, rfl, Position.le_refl _, le⟩
  | unexpected _ => exact ⟨_, rfl, Position.le_refl _, le⟩
  | single _ _ => exact ⟨_, rfl, le, Position.le_refl _⟩
  | singleLast _ => exact ⟨_, rfl, Position.le_refl _, le⟩
  | unclosed _ => exact ⟨_, rfl, Position.le_refl _, le⟩

/-- The items of a reading have positions, these are in order, and the end token comes last. -/
theorem Lexical.Reading.ordered {read rest : List Char} {items : List Item}
    (h : Reading read rest items) (short : (read ++ rest).length < 2147483647) :
    let all := items ++ [.token (.endAt (.behind (read ++ rest)))]
    all.Pairwise (fun a b => a.mark ≤ b.mark) ∧
      ∀ item ∈ all, (∃ p, item.position? = some p) ∧ .behind read ≤ item.mark := by
  induction h with
  | @done read gap last =>
      refine ⟨List.pairwise_singleton _ _, fun item mem => ?_⟩
      cases List.mem_singleton.mp mem
      exact ⟨⟨_, rfl⟩, Position.behind_le short⟩
  | @item read gap text after item items skipped described _ ih =>
      have split : read ++ (gap ++ text ++ after) = read ++ gap ++ text ++ after := by
        simp only [List.append_assoc]
      rw [split] at short ⊢
      have length := short
      simp only [List.length_append] at length
      obtain ⟨p, place, least, most⟩ :=
        described.position (by simp only [List.length_append]; omega)
      obtain ⟨pairs, bound⟩ := ih short
      have skips : Position.behind read ≤ .behind (read ++ gap) :=
        Position.behind_le (by simp only [List.length_append]; omega)
      rw [← Item.mark_of_some place] at least most
      refine ⟨.cons (fun later mem => Position.le_trans most (bound later mem).2) pairs,
        fun other mem => ?_⟩
      rcases List.mem_cons.mp mem with rfl | mem
      · exact ⟨⟨p, place⟩, Position.le_trans skips least⟩
      · have behind := (bound other mem).2
        have within := Position.le_trans least (Position.le_trans most behind)
        exact ⟨(bound other mem).1, Position.le_trans skips within⟩

/-! ## What is kept about the reports -/

/-- The item that a report is at. -/
def Report.item : Report → Item
  | .lexical found => .fault found
  | .atToken t _ => .token t

theorem Report.position?_eq (r : Report) : r.position? = r.item.position? := by
  cases r <;> rfl

namespace State

/-- What is ahead: the items still to be read and the end token. -/
def ahead (s : State) : List Item := s.upcoming ++ [.token s.finish]

/-- Everything was reported in order, at the items `all`, and nothing of it is behind what is
ahead. -/
structure Keeps (all ahead : List Item) (s : State) : Prop where
  suffix : ahead <:+ all
  located : ∀ r ∈ s.reports, r.item ∈ all
  sorted : s.reports.Pairwise fun later earlier => earlier.item.mark ≤ later.item.mark
  below : ∀ r ∈ s.reports, ∀ item ∈ ahead, r.item.mark ≤ item.mark

/-- The token before the current one may be reported on: if there is no panic then nothing was
reported behind it. -/
structure Fresh (all ahead : List Item) (s : State) : Prop where
  located : .token s.previous ∈ all
  below : ∀ item ∈ ahead, (Item.token s.previous).mark ≤ item.mark
  behind : s.panicking = false → ∀ r ∈ s.reports, r.item.mark ≤ (Item.token s.previous).mark

variable {all ahead ahead' : List Item} {s s' : State}

theorem Keeps.of_suffix (h : Keeps all ahead s) (less : ahead' <:+ ahead) : Keeps all ahead' s where
  suffix := less.trans h.suffix
  located := h.located
  sorted := h.sorted
  below := fun r mem item later => h.below r mem item (less.subset later)

theorem Fresh.of_suffix (h : Fresh all ahead s) (less : ahead' <:+ ahead) : Fresh all ahead' s where
  located := h.located
  below := fun item later => h.below item (less.subset later)
  behind := h.behind

/-- A report keeps the order if it is not before the earlier ones and not behind what is ahead. -/
theorem Keeps.report (h : Keeps all ahead s) {r : Report} (located : r.item ∈ all)
    (below : ∀ item ∈ ahead, r.item.mark ≤ item.mark)
    (behind : s.panicking = false → ∀ earlier ∈ s.reports, earlier.item.mark ≤ r.item.mark) :
    Keeps all ahead (s.report r) := by
  rw [State.report]
  split
  · exact h
  · rename_i calm
    exact {
      suffix := h.suffix
      located := List.forall_mem_cons.mpr ⟨located, h.located⟩
      sorted := .cons (behind (eq_false_of_ne_true calm)) h.sorted
      below := List.forall_mem_cons.mpr ⟨below, h.below⟩ }

/-- In panic nothing more is reported. -/
theorem Fresh.report (h : Fresh all ahead s) (r : Report) : Fresh all ahead (s.report r) where
  located := by rw [report_previous]; exact h.located
  below := by rw [report_previous]; exact h.below
  behind := by
    rw [report_panicking]
    exact nofun

/-- The current token is ahead, be it the end token. -/
theorem current_mem (s : State) : .token s.current ∈ s.ahead := by
  rw [State.ahead, State.current]
  split
  · rename_i same
    rw [same]
    exact List.mem_cons_self ..
  · exact List.mem_append_right _ (List.mem_singleton_self _)

theorem ahead_report (s : State) (r : Report) : (s.report r).ahead = s.ahead := by
  rw [State.ahead, report_upcoming, report_finish, State.ahead]

section

variable (ordered : all.Pairwise fun a b => a.mark ≤ b.mark)
include ordered

/-- The items of a scan come in the order of their positions, so the first of an end piece is least
there. -/
theorem mark_le_of_suffix {item : Item} (suffix : item :: ahead <:+ all) :
    ∀ other ∈ item :: ahead, item.mark ≤ other.mark := by
  have pairs := ordered.sublist suffix.sublist
  exact List.forall_mem_cons.mpr ⟨Position.le_refl _, fun _ => List.rel_of_pairwise_cons pairs⟩

/-- Nothing that is ahead is before the current token. -/
theorem Keeps.current_le (h : Keeps all s.ahead s)
    (head : ∀ found items, s.upcoming ≠ .fault found :: items) :
    ∀ item ∈ s.ahead, (Item.token s.current).mark ≤ item.mark := by
  have first : ∃ items, s.ahead = .token s.current :: items := by
    rw [State.ahead, State.current]
    cases same : s.upcoming with
    | nil => exact ⟨[], rfl⟩
    | cons item items =>
        cases item with
        | fault found => exact absurd same (head found items)
        | token t => exact ⟨items ++ [.token s.finish], rfl⟩
  obtain ⟨items, same⟩ := first
  rw [same]
  exact mark_le_of_suffix ordered (same ▸ h.suffix)

/-- The current token is the least of what is ahead, and no less than what was reported. -/
theorem Keeps.reportCurrent (h : Keeps all s.ahead s)
    (head : ∀ found items, s.upcoming ≠ .fault found :: items) (problem : Problem) :
    Keeps all s.ahead (s.reportCurrent problem) := by
  have mem := current_mem s
  exact h.report (h.suffix.subset mem) (h.current_le ordered head)
    fun _ earlier old => h.below earlier old _ mem

/-- By induction along the items.  A fault is reported where it stands, in front of all that is
left. -/
theorem Keeps.skip (stop : Token → Token → Bool) (s : State) (items : List Item)
    (h : Keeps all (items ++ [.token s.finish]) s) :
    Keeps all (skip stop s items).ahead (skip stop s items) ∧
      (Fresh all (items ++ [.token s.finish]) s →
        Fresh all (skip stop s items).ahead (skip stop s items)) := by
  fun_induction State.skip stop s items with
  | case1 s => exact ⟨⟨h.suffix, h.located, h.sorted, h.below⟩,
      fun fresh => ⟨fresh.located, fresh.below, fresh.behind⟩⟩
  | case2 s found items ih =>
      have least := mark_le_of_suffix ordered h.suffix
      have reported : Keeps all _ (s.report (.lexical found)) :=
        h.report (h.suffix.subset (List.mem_cons_self ..)) least fun _ earlier mem =>
          h.below earlier mem _ (List.mem_cons_self ..)
      rw [← report_finish s (.lexical found)] at reported
      obtain ⟨keeps, kept⟩ := ih (reported.of_suffix (List.suffix_cons ..))
      refine ⟨keeps, fun fresh => kept ?_⟩
      rw [report_finish]
      exact (fresh.report _).of_suffix (List.suffix_cons ..)
  | case3 s t items stops => exact ⟨⟨h.suffix, h.located, h.sorted, h.below⟩,
      fun fresh => ⟨fresh.located, fresh.below, fresh.behind⟩⟩
  | case4 s t items goesOn ih =>
      have least := mark_le_of_suffix ordered h.suffix
      have rest := h.of_suffix (List.suffix_cons ..)
      obtain ⟨keeps, kept⟩ := ih ⟨rest.suffix, h.located, h.sorted, rest.below⟩
      refine ⟨keeps, fun _ => kept ⟨h.suffix.subset (List.mem_cons_self ..), ?_, ?_⟩⟩
      · exact fun other later => least other (List.mem_cons_of_mem _ later)
      · exact fun _ r mem => h.below r mem _ (List.mem_cons_self ..)

/-- The report is at the current token, and then faults are skipped to the end in panic. -/
theorem Keeps.abort (h : Keeps all s.ahead s)
    (head : ∀ found items, s.upcoming ≠ .fault found :: items) (problem : Problem) :
    Keeps all (s.abort problem).ahead (s.abort problem) ∧
      (Fresh all s.ahead s → Fresh all (s.abort problem).ahead (s.abort problem)) := by
  have kept := h.reportCurrent ordered head problem
  have same : s.ahead = s.upcoming ++ [.token (s.reportCurrent problem).finish] := by
    rw [State.ahead, State.reportCurrent, report_finish]
  rw [same] at kept ⊢
  obtain ⟨keeps, fresh⟩ := Keeps.skip ordered (fun _ _ => false)
    { s.reportCurrent problem with aborted := true } s.upcoming
    ⟨kept.suffix, kept.located, kept.sorted, kept.below⟩
  refine ⟨keeps, fun here => fresh ?_⟩
  have reported := here.report (.atToken s.current problem)
  exact ⟨reported.located, reported.below, reported.behind⟩

end

/-- A state that a parse may be in, with its reports in order.  `inside` says whether the token
before the current one may be reported on. -/
structure Orderly (all : List Item) (inside : Bool) (s : State) : Prop where
  standing : s.Standing
  keeps : Keeps all s.ahead s
  fresh : inside = true → Fresh all s.ahead s

namespace Orderly

variable {inside : Bool}

theorem outside (h : Orderly all inside s) : Orderly all false s :=
  ⟨h.standing, h.keeps, nofun⟩

theorem with_depth (h : Orderly all inside s) (depth : Nat) :
    Orderly all inside { s with depth := depth } where
  standing := ⟨h.standing.finish, h.standing.ends, h.standing.head, h.standing.operators⟩
  keeps := ⟨h.keeps.suffix, h.keeps.located, h.keeps.sorted, h.keeps.below⟩
  fresh := fun here => ⟨(h.fresh here).located, (h.fresh here).below, (h.fresh here).behind⟩

theorem with_operators (h : Orderly all inside s) {operators : Nat}
    (le : operators ≤ maxOperators) :
    Orderly all inside { s with operators := operators } where
  standing := ⟨h.standing.finish, h.standing.ends, h.standing.head, .inl le⟩
  keeps := ⟨h.keeps.suffix, h.keeps.located, h.keeps.sorted, h.keeps.below⟩
  fresh := fun here => ⟨(h.fresh here).located, (h.fresh here).below, (h.fresh here).behind⟩

variable (ordered : all.Pairwise fun a b => a.mark ≤ b.mark)
include ordered

/-- A report at the current token keeps the order, and the token before it lies behind. -/
theorem reportCurrent (h : Orderly all inside s) (problem : Problem) :
    Orderly all inside (s.reportCurrent problem) := by
  have kept := h.keeps.reportCurrent ordered h.standing.head problem
  have same := s.ahead_report (.atToken s.current problem)
  exact ⟨(s.report_onward _).standing h.standing, same ▸ kept,
    fun here => same ▸ (h.fresh here).report _⟩

omit ordered in
/-- A report at the token before the current one is made only while nothing was reported behind
it. -/
theorem reportPrevious (h : Orderly all true s) (problem : Problem) :
    Orderly all true (s.reportPrevious problem) := by
  have fresh := h.fresh rfl
  have kept : Keeps all s.ahead (s.reportPrevious problem) :=
    h.keeps.report fresh.located fresh.below fresh.behind
  have same := s.ahead_report (.atToken s.previous problem)
  exact ⟨(s.report_onward _).standing h.standing, same ▸ kept, fun _ => same ▸ fresh.report _⟩

/-- To step over a token makes it the one that may be reported on. -/
theorem advance (h : Orderly all inside s) : Orderly all true s.advance := by
  have mem := current_mem s
  have less : s.upcoming.tail ++ [.token s.finish] <:+ s.ahead := by
    obtain ⟨front, same⟩ := List.tail_suffix s.upcoming
    exact ⟨front, by rw [← List.append_assoc, same, State.ahead]⟩
  have rest := h.keeps.of_suffix less
  obtain ⟨keeps, kept⟩ := Keeps.skip ordered (fun _ _ => true) { s with previous := s.current }
    s.upcoming.tail ⟨rest.suffix, rest.located, rest.sorted, rest.below⟩
  refine ⟨s.advance_onward.standing h.standing, keeps, fun _ => kept ⟨?_, ?_, ?_⟩⟩
  · exact h.keeps.suffix.subset mem
  · exact fun item later => h.keeps.current_le ordered h.standing.head item (less.subset later)
  · exact fun _ r old => h.keeps.below r old _ mem

/-- Behind a limit the order is kept, with nothing ahead but the end token. -/
theorem abort (h : Orderly all inside s) (problem : Problem) (operators : Nat) :
    Orderly all inside (State.abort { s with operators := operators } problem) := by
  have keeps : Keeps all (State.ahead { s with operators := operators })
      { s with operators := operators } :=
    ⟨h.keeps.suffix, h.keeps.located, h.keeps.sorted, h.keeps.below⟩
  obtain ⟨kept, fresh⟩ := keeps.abort ordered h.standing.head problem
  exact ⟨(s.abort_onward problem operators).standing h.standing, kept, fun here =>
    fresh ⟨(h.fresh here).located, (h.fresh here).below, (h.fresh here).behind⟩⟩

/-- Recovery reports no token, only faults it skips. -/
theorem recover (h : Orderly all inside s) : Orderly all false s.recover := by
  rw [State.recover]
  split
  · exact h.outside
  · have kept := Keeps.skip ordered (resumes s.depth) { s with panicking := false } s.upcoming
      ⟨h.keeps.suffix, h.keeps.located, h.keeps.sorted, h.keeps.below⟩
    refine ⟨?_, kept.1, fun inside => absurd inside Bool.false_ne_true⟩
    have onward := s.recover_onward.standing h.standing
    rwa [State.recover, if_neg ‹_›] at onward

end Orderly

section

variable (ordered : all.Pairwise fun a b => a.mark ≤ b.mark)
include ordered

/-- By induction on the moves. -/
theorem Moves.orderly (h : s.Moves s') : Orderly all true s → Orderly all true s' := by
  induction h with
  | refl s => exact id
  | trans _ _ ih ih' => exact ih' ∘ ih
  | advance s => exact fun here => here.advance ordered
  | reportCurrent s problem => exact fun here => here.reportCurrent ordered problem
  | reportPrevious s problem => exact fun here => here.reportPrevious problem
  | count s le => exact fun here => here.with_operators le
  | overflow s _ => exact fun here => here.abort ordered _ _
  | refuse s _ => exact fun here => here.abort ordered _ _
  | nested _ _ ih => exact fun here => (ih (here.with_depth _)).with_depth _

/-- By induction on the work.  Behind a level or a recovery the token before the current one is not
reported on until another is stepped over. -/
theorem Works.orderly {inside : Bool} (h : Works inside s s') :
    Orderly all inside s → Orderly all false s' := by
  induction h with
  | refl s => exact Orderly.outside
  | step _ ih => exact fun here => ih (here.advance ordered)
  | phrase moves _ ih => exact fun here => ih (moves.orderly ordered here)
  | whole _ ih => exact fun here => ih (here.with_operators (Nat.zero_le _))
  | reportCurrent problem _ ih => exact fun here => ih (here.reportCurrent ordered problem)
  | refuse _ _ ih => exact fun here => ih (here.abort ordered _ _)
  | nested _ _ _ ih ih' => exact fun here => ih' ((ih (here.with_depth _)).with_depth _)
  | recover _ _ ih => exact fun here => ih (here.recover ordered)

/-- A parse starts with nothing reported and all items ahead. -/
theorem ofScan_orderly {scan : Scan} (ended : scan.Ended)
    (whole : all = scan.items ++ [.token scan.finish]) : Orderly all false (ofScan scan) where
  standing := ofScan_standing ended
  keeps := (Keeps.skip ordered (fun _ _ => true) _ scan.items
    ⟨whole ▸ List.suffix_rfl, fun _ mem => absurd mem List.not_mem_nil, .nil,
      fun _ mem => absurd mem List.not_mem_nil⟩).1
  fresh := nofun

end

end State

/-! ## Whole sources -/

theorem Lexical.Lexeme.kind_ne_placeholder {kind : TokenKind} {text : List Char}
    (h : Lexeme kind text) : kind ≠ .placeholder := by
  rintro rfl
  cases h with
  | fixed spelled => cases spelled

/-- No token of a reading is the placeholder, by induction on the reading. -/
theorem Lexical.Reading.kind_ne_placeholder {read rest : List Char} {items : List Item}
    (h : Reading read rest items) {t : Token} (mem : .token t ∈ items) : t.kind ≠ .placeholder := by
  induction h with
  | done last => cases mem
  | item skipped described _ ih =>
      rcases List.mem_cons.mp mem with rfl | mem
      · cases described with
        | token lexeme _ => exact lexeme.kind_ne_placeholder
      · exact ih mem

/-- A token other than the end token is quoted. -/
theorem Token.render_eq {t : Token} (inside : t.kind ≠ .endOfInput)
    (real : t.kind ≠ .placeholder) : t.render = "'" ++ t.text ++ "'" := by
  rw [render]
  split
  · exact absurd ‹_› real
  · exact absurd ‹_› inside
  · rfl

namespace Report

/-- `Located scan report p note`: the report is at an item of the scan, which is at `p`, and
`note` is what it says there.  It quotes the text of a token, it says that it is at the end, or it
has the message of a fault. -/
inductive Located (scan : Scan) : Report → Position → String → Prop where
  | token {t : Token} {problem : Problem} : .token t ∈ scan.items →
      Located scan (.atToken t problem) t.start (" at '" ++ t.text ++ "': " ++ problem.message)
  | finish {problem : Problem} :
      Located scan (.atToken scan.finish problem) scan.finish.start (" at EOF: " ++ problem.message)
  | fault {found : LexFault} {p : Position} : .fault found ∈ scan.items →
      found.position? = some p → Located scan (.lexical found) p (": " ++ found.message)

/-- The line of a report that is located has the position and what it says there. -/
theorem Located.line {source : String} {r : Report} {p : Position} {note : String}
    (h : Located (scan source) r p note) (path : String) :
    r.position? = some p ∧ r.render path = "[" ++ path ++ ":" ++ p.render ++ "] Error" ++ note := by
  have opening : " at '" = " at " ++ "'" := by decide
  have closing : "': " = "'" ++ ": " := by decide
  have ending : " at EOF: " = " at EOF" ++ ": " := by decide
  cases h with
  | @token t problem mem =>
      have inside := (scan_ended source).items t mem
      have shown := Token.render_eq inside ((scan_reading source).kind_ne_placeholder mem)
      refine ⟨rfl, ?_⟩
      simp only [render, position?, tokenNote, if_neg inside, shown, message, opening, closing,
        String.append_assoc]
  | finish =>
      refine ⟨rfl, ?_⟩
      simp only [render, position?, tokenNote, if_pos (scan_ended source).finish, message, ending,
        String.append_assoc]
  | fault mem place =>
      refine ⟨place, ?_⟩
      simp only [render, position?, place, tokenNote, message, String.append_assoc,
        String.empty_append]

end Report

/-- A report at an item that has a position is located. -/
theorem Report.located_of_mem {scan : Scan} {r : Report} {p : Position}
    (mem : r.item ∈ scan.items ++ [.token scan.finish]) (place : r.item.position? = some p) :
    ∃ note, r.Located scan p note := by
  rcases List.mem_append.mp mem with inside | last
  · cases r with
    | lexical found => exact ⟨_, .fault inside place⟩
    | atToken t problem =>
        cases place
        exact ⟨_, .token inside⟩
  · cases r with
    | lexical found => cases List.mem_singleton.mp last
    | atToken t problem =>
        cases List.mem_singleton.mp last
        cases place
        exact ⟨_, .finish⟩

/-- A parse counts its reports.  Each of them is at an item of the source and says so, none is at
the placeholder before the first token, and they come in the order of the source. -/
theorem parse_reports_ordered (source : String) (short : source.length < 2147483647) :
    (parse source).errors = (parse source).reports.length ∧
    (∀ r ∈ (parse source).reports, ∃ p note, r.Located (scan source) p note ∧
      r.position? = some p ∧
      (∀ path, r.render path = "[" ++ path ++ ":" ++ p.render ++ "] Error" ++ note) ∧
      ∀ t problem, r = .atToken t problem → t.kind ≠ .placeholder) ∧
    ∃ positions : List Position,
      (parse source).reports.map Report.position? = positions.map some ∧
      positions.Pairwise (· ≤ ·) := by
  have reading := scan_reading source
  have length : source.toList.length < 2147483647 := by rwa [String.length_toList]
  obtain ⟨ordered, placed⟩ := reading.ordered length
  have finish : (scan source).finish = .endAt (.behind source.toList) := scan_finish source
  rw [List.nil_append, ← finish] at ordered placed
  have begun := ofScan_orderly ordered (scan_ended source) rfl
  have keeps := ((program_works (ofScan_depth _)).orderly ordered begun).keeps
  have reports : (parse source).reports = (program (ofScan (scan source))).2.reports.reverse := rfl
  have place : ∀ r ∈ (parse source).reports, r.item.position? = some r.item.mark := by
    intro r mem
    obtain ⟨p, place⟩ := (placed _ (keeps.located r (List.mem_reverse.mp mem))).1
    rw [place, Item.mark_of_some place]
  refine ⟨?_, fun r mem => ?_, (parse source).reports.map fun r => r.item.mark, ?_, ?_⟩
  · rw [reports, List.length_reverse]
    exact ((program_works (ofScan_depth _)).accurate (ofScan_accurate _)).errors
  · obtain ⟨note, located⟩ :=
      Report.located_of_mem (keeps.located r (List.mem_reverse.mp mem)) (place r mem)
    refine ⟨_, note, located, (located.line "").1, fun path => (located.line path).2, ?_⟩
    rintro t problem rfl
    cases located with
    | token inside => exact reading.kind_ne_placeholder inside
    | finish => rw [(scan_ended source).finish]; decide
  · rw [List.map_map]
    exact List.map_congr_left fun r mem => by rw [Report.position?_eq, place r mem]; rfl
  · rw [reports, List.pairwise_map, List.pairwise_reverse]
    exact keeps.sorted

/-- A missing expression, a `&` without its second, and a group that is not closed. -/
theorem parse_reports_ordered_faults :
    "x = ;\nout 1 & 2;\nout (".length < 2147483647 ∧
      (parse "x = ;\nout 1 & 2;\nout (").errors = 3 ∧
      (parse "x = ;\nout 1 & 2;\nout (").reports.map Report.position? =
        [some ⟨1, 5⟩, some ⟨2, 8⟩, some ⟨3, 6⟩] ∧
      [⟨1, 5⟩, ⟨2, 8⟩, (⟨3, 6⟩ : Position)].Pairwise (· ≤ ·) := by
  have short : "x = ;\nout 1 & 2;\nout (".length < 2147483647 := by decide
  have places : (parse "x = ;\nout 1 & 2;\nout (").reports.map Report.position? =
      [⟨1, 5⟩, ⟨2, 8⟩, ⟨3, 6⟩].map some := by decide +kernel
  obtain ⟨count, _, positions, same, sorted⟩ := parse_reports_ordered _ short
  have length := congrArg List.length places
  rw [List.length_map, ← count] at length
  rw [places, List.map_inj_right fun _ _ => Option.some.inj] at same
  exact ⟨short, length, places, same ▸ sorted⟩

end WhenLoop
