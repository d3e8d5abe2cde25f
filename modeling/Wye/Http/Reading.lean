import Wye.Http.Parse

/-!
# What the socket reads

Between two reads of its channel the socket keeps what it has not made use of at the front of its
buffer (`Socket.Holds`). Each operation that reads is a run of `lexOne` over the bytes that were kept
and the bytes that arrive, in whatever pieces they come (`schedule_done`).
-/

namespace Wye

open Text Buffer Incremental Transition

namespace Http

/-- The front of the buffer is the name of the field that is being read, and `rest`, of which nothing
can be made yet. -/
structure Socket.Holds (s : Socket) (c : Control) (rest : Str) (name : Option Str) : Prop where
  parser : (s.parser.setBuffer rest).At c rest
  used : s.usedSize ≤ s.buffer.length
  buffer : view s.buffer 0 s.usedSize = name.getD [] ++ rest
  expecting : s.expectingField = name.isSome
  nameSize : ∀ n ∈ name, s.fieldNameSize = n.length

namespace Socket

variable {s s' : Socket} {c d : Control} {rest q : Str} {name name' : Option Str}

theorem Holds.size (h : s.Holds c rest name) : (name.getD []).length + rest.length = s.usedSize := by
  rw [← List.length_append, ← h.buffer, length_view]
  rw [Nat.zero_add]
  exact h.used

/-- What is left alone while the socket reads: all but the arrivals of the channel. -/
structure Frame (s s' : Socket) : Prop where
  isOpen : s'.isOpen = s.isOpen
  length : s'.buffer.length = s.buffer.length
  channel : s'.channel = { s.channel with arrives := s'.channel.arrives }

theorem Frame.trans {s'' : Socket} (h : Frame s s') (h' : Frame s' s'') : Frame s s'' :=
  ⟨h'.isOpen.trans h.isOpen, h'.length.trans h.length, by rw [h'.channel, h.channel]⟩

theorem Frame.of_eq (hopen : s'.isOpen = s.isOpen) (hlen : s'.buffer.length = s.buffer.length)
    (hchannel : s'.channel = s.channel) : Frame s s' := ⟨hopen, hlen, by rw [hchannel]⟩

end Socket

theorem Loop.compact_spec {l : Loop} {d : Control} {ended : Bool} {q : Str} {name : Option Str}
    (h : l.Holds d ended q name) (hcode : l.socket.parser.code = .errorInsufficientData) :
    ∃ s, l.compact = some s ∧ s.Holds d q name ∧ s.toProgress = l.socket.toProgress ∧
      s.channel = l.socket.channel ∧ s.isOpen = l.socket.isOpen ∧
      s.buffer.length = l.socket.buffer.length := by
  have hparser : (l.socket.parser.setBuffer q).At d q := by
    have hat := h.parser
    rw [Reader.consume_of_more hcode] at hat
    cases ended with
    | false => exact hat.setBuffer
    | true =>
      have hzero : l.socket.parser.tokenSize = 0 := Nat.le_zero.mp hat.size
      refine ⟨hat.control, hat.code, rfl, Nat.zero_le _, ?_, ?_⟩
      · exact hzero.le.trans (Nat.zero_le _)
      · change Seen d.state (q.take l.socket.parser.tokenSize)
        rw [hzero, List.take_zero]
        exact seen_nil _
  have hused := h.used
  have hunparsed := h.unparsed
  have hcount : l.socket.usedSize - l.nparsed = q.length := by omega
  have hle : l.nparsed ≤ l.socket.usedSize := by omega
  rw [compact]
  cases name with
  | none =>
    have hexpecting : l.socket.expectingField = false := h.expecting
    have hfits : 0 + q.length ≤ l.socket.buffer.length := by omega
    simp only [hexpecting, Bool.not_false, if_true, if_pos hle, hcount,
      copyN_eq (show l.nparsed + q.length ≤ l.socket.buffer.length by omega) (Nat.zero_le l.nparsed),
      h.rest_eq, Option.map_some]
    refine ⟨_, rfl, ⟨hparser, ?_, view_overwrite hfits, rfl, nofun⟩, rfl, rfl, rfl,
      length_overwrite hfits⟩
    rw [length_overwrite hfits]
    dsimp only
    omega
  | some m =>
    obtain ⟨hsize, hbegin, hview⟩ := h.name m rfl
    have hexpecting : l.socket.expectingField = true := h.expecting
    simp only [hexpecting, Bool.not_true, Bool.false_eq_true, if_false, if_pos hle, hcount, hsize]
    by_cases hzero : l.nparsed = 0
    · have hm : m = [] := List.length_eq_zero_iff.mp (by omega)
      subst hm
      rw [if_neg (not_not.mpr hzero)]
      refine ⟨_, rfl, ⟨hparser, hused, ?_, hexpecting, fun n hn => ?_⟩, rfl, rfl, rfl, rfl⟩
      · have hrest := h.rest_eq
        rw [hzero] at hrest hunparsed
        rwa [← hunparsed, Nat.zero_add]
      · cases hn
        exact hsize
    · have hfirst : 0 + m.length ≤ l.socket.buffer.length := by omega
      have hlen := length_overwrite hfirst
      have hrest : view (overwrite l.socket.buffer 0 m) l.nparsed q.length = q := by
        rw [view_overwrite_behind hfirst (by omega), h.rest_eq]
      have hsecond : m.length + q.length ≤ (overwrite l.socket.buffer 0 m).length := by
        rw [hlen]
        omega
      rw [if_pos hzero, copyN_eq (by omega) (Nat.zero_le _), hview, Option.bind_some,
        copyN_eq (by rw [hlen]; omega) (by omega), hrest, Option.map_some]
      refine ⟨_, rfl, ⟨hparser, ?_, ?_, rfl, fun n hn => ?_⟩, rfl, rfl, rfl,
        (length_overwrite hsecond).trans hlen⟩
      · rw [length_overwrite hsecond, hlen]
        dsimp only
        omega
      · rw [Nat.add_comm q.length, view_append, Nat.zero_add,
          view_overwrite_before (by rw [hlen]; omega) (by omega), view_overwrite hfirst,
          view_overwrite hsecond]
        rfl
      · cases hn
        rfl

/-- Whether an operation has what it waits for. -/
def Target.hit (target : Target) (ks : List Token) : Bool :=
  target.reached (ks.filterMap fun k => k.code.target)

theorem Target.reached_eq_hit {target : Target} {flags : List Target} {ks : List Token}
    (h : ∀ t, t ∈ flags ↔ ∃ k ∈ ks, k.code.target = some t) : target.reached flags = target.hit ks := by
  have hsame (t : Target) : flags.contains t = (ks.filterMap fun k => k.code.target).contains t := by
    rw [Bool.eq_iff_iff, List.contains_iff_mem, List.contains_iff_mem, h, List.mem_filterMap]
  rw [hit]
  cases target <;> simp only [reached, hsame]

theorem lexOne_stable : Stable lexOne := lex_stable.upTo

/-! ### Room -/

/-- A buffer of `N` bytes is not enough to go on: with the name of the field it is full, and nothing
can be made of what is in it. -/
def Blocked (N : Nat) (e : Control × Bool) (name : Option Str) (r : Str) : Prop :=
  ∃ p y, r = p ++ y ∧ (name.getD []).length + p.length = N ∧ lexOne e p = .more

/-- On its way through some tokens the reader is not blocked. -/
def Roomy (N : Nat) (c : Control × Bool) (x : Told) (a : Str) (ks : List Token) : Prop :=
  ∀ ks₁ k ks₂ e r, ks = ks₁ ++ k :: ks₂ → Run (Step lexOne) (c, a) ks₁ (e, r) →
    ¬ Blocked N e (tellAll x ks₁).2 r

section
variable {N : Nat} {c d : Control × Bool} {x : Told} {a q : Str} {ks ks' : List Token}

theorem roomy_nil : Roomy N c x a [] := by
  intro ks₁ k ks₂ e r h
  simp at h

theorem Roomy.append (h : Roomy N c x a ks) (hrun : Run (Step lexOne) (c, a) ks (d, q))
    (h' : Roomy N d (tellAll x ks) q ks') : Roomy N c x a (ks ++ ks') := by
  intro ks₁ k ks₂ e r hks hrun₁
  rcases List.append_eq_append_iff.mp hks with ⟨l, rfl, hl⟩ | ⟨l, rfl, hl⟩
  · obtain ⟨u, hu, hrest⟩ := hrun₁.split
    obtain rfl := run_eq hu hrun
    rw [tellAll_append]
    exact h' l k ks₂ e r hl hrest
  · cases l with
    | nil =>
      rw [List.append_nil] at hrun h'
      obtain heq := run_eq hrun₁ hrun
      cases heq
      exact h' [] k ks₂ d q (by simpa using hl.symm) .nil
    | cons k' l =>
      cases hl
      exact h ks₁ k l e r rfl hrun₁

theorem run_size (h : Run (Step lexOne) (c, a) ks (d, q)) :
    ((tellAll x ks).2.getD []).length + q.length ≤ (x.2.getD []).length + a.length := by
  generalize hd : (d, q) = u at h
  induction h generalizing d q with
  | nil =>
    cases hd
    exact Nat.le_refl _
  | @snoc v w ks k _ hstep ih =>
    subst hd
    have hv := ih (d := v.1) (q := v.2) rfl
    obtain ⟨n, e, hmove, heq⟩ := hstep
    obtain ⟨-, rfl⟩ := Prod.mk.inj heq
    obtain ⟨-, hmove, -⟩ := upTo_take_iff.mp hmove
    have hn := lex_stable.le hmove
    have htext := lex_text hmove
    refine Nat.le_trans ?_ hv
    rw [tellAll_append, tellAll_cons, tellAll_nil, List.length_drop]
    unfold tell
    split
    · rw [Option.getD_some, List.length_map, htext, List.length_take]
      omega
    · rw [Option.getD_none, List.length_nil]
      omega
    · dsimp only
      omega

theorem roomy_of_size (h : Run (Step lexOne) (c, a) ks (d, q))
    (hN : (x.2.getD []).length + a.length ≤ N) (b : Str) : Roomy N c x (a ++ b) ks := by
  intro ks₁ k ks₂ e r hks hrun
  subst hks
  obtain ⟨⟨e', r'⟩, hrun₁, hrest⟩ := h.split
  obtain heq := run_eq hrun (lexOne_stable.run_append hrun₁ b)
  cases heq
  obtain ⟨u, ⟨n, t, hmove, -⟩, -⟩ := hrest.uncons
  rintro ⟨p, y, hp, hlen, hmore⟩
  have hsize := (run_size (x := x) hrun₁).trans hN
  obtain ⟨z, rfl⟩ : ∃ z, p = r' ++ z :=
    List.prefix_of_prefix_length_le (List.prefix_append r' b) (hp ▸ List.prefix_append p y)
      (by omega) |>.imp fun _ => Eq.symm
  cases hmore.symm.trans (lexOne_stable.take hmove z)

theorem not_blocked_of_fail {name : Option Str} {e : Code} (h : lexOne d q = .fail e)
    (hN : (name.getD []).length + q.length ≤ N) (b : Str) : ¬ Blocked N d name (q ++ b) := by
  rintro ⟨p, y, hp, hlen, hmore⟩
  obtain ⟨z, rfl⟩ : ∃ z, p = q ++ z :=
    List.prefix_of_prefix_length_le (List.prefix_append q b) (hp ▸ List.prefix_append p y)
      (by omega) |>.imp fun _ => Eq.symm
  cases hmore.symm.trans (lexOne_stable.fail h z)

theorem not_blocked_of_lt {name : Option Str} (hN : (name.getD []).length + q.length < N) :
    ¬ Blocked N d name q := by
  rintro ⟨p, y, rfl, hlen, -⟩
  rw [List.length_append] at hN
  omega

end

namespace Socket

variable {s s' : Socket} {c : Control} {rest q : Str} {name name' : Option Str} {target : Target}

/-- All that is still to be read: what has been kept, and what arrives. -/
def ahead (s : Socket) (rest : Str) : Str := rest ++ s.channel.arrives.flatten

/-- The socket has read on, and told what it has read. -/
structure Went (s s' : Socket) (ks : List Token) (c : Control) (rest : Str) (name : Option Str)
    (d : Control × Bool) (q : Str) (name' : Option Str) : Prop where
  run : Run (Step lexOne) ((c, false), s.ahead rest) ks (d, s'.ahead q)
  roomy : Roomy s.buffer.length (c, false) (s.toProgress, name) (s.ahead rest) ks
  told : tellAll (s.toProgress, name) ks = (s'.toProgress, name')
  holds : s'.Holds d.1 q name'
  shows : Shows d.1 (s'.toProgress, name')
  looks : Reader.looks d.1.state = true
  frame : s.Frame s'

/-- The socket has forgotten what it had read. -/
structure Cleared (s : Socket) (c : Control) : Prop where
  holds : s.Holds c [] none
  shows : Shows c (s.toProgress, none)
  state : c.state = .expectMethod
  bodyType : c.bodyType = .noBody

theorem clearBuffer_cleared (s : Socket) :
    s.clearBuffer.Cleared s.parser.reset.toControl where
  holds :=
    { parser := ⟨rfl, rfl, rfl, Nat.zero_le _, Nat.le_refl _, seen_nil _⟩
      used := Nat.zero_le _
      buffer := rfl
      expecting := rfl
      nameSize := nofun }
  shows :=
    ⟨⟨by simp [Reader.reset], by simp [Reader.reset]⟩, by simp [Reader.reset], rfl, rfl, nofun⟩
  state := rfl
  bodyType := rfl

/-- How `on_async_read_message` is left. -/
inductive Comes (target : Target) (s : Socket) (c : Control) (rest : Str) (name : Option Str) :
    Reached → Prop
  | hit {s' : Socket} {ks : List Token} {d : Control × Bool} {q : Str} {name' : Option Str} :
    s.Went s' ks c rest name d q name' → target.hit ks = true →
    Comes target s c rest name (.handler (.ok ()) s')
  | full {s' : Socket} {ks : List Token} {d : Control × Bool} {q : Str} {name' : Option Str} :
    s.Went s' ks c rest name d q name' → target.hit ks = false → lexOne d q = .more →
    s'.usedSize = s'.buffer.length → Comes target s c rest name (.handler (.error .bufferExhausted) s')
  | on {s' : Socket} {ks : List Token} {d : Control × Bool} {q : Str} {name' : Option Str} :
    s.Went s' ks c rest name d q name' → target.hit ks = false → lexOne d q = .more →
    s'.usedSize ≠ s'.buffer.length → Comes target s c rest name (.asyncReadSome s')
  | invalid {s' : Socket} {ks : List Token} {d : Control × Bool} {q : Str} {e : Code} {c' : Control} :
    Run (Step lexOne) ((c, false), s.ahead rest) ks (d, q) →
    Roomy s.buffer.length (c, false) (s.toProgress, name) (s.ahead rest) ks →
    ¬ Blocked s.buffer.length d (tellAll (s.toProgress, name) ks).2 q → lexOne d q = .fail e →
    s'.Cleared c' → s.Frame s' → Comes target s c rest name (.handler (.error .parsingError) s')

theorem looks_of_more {c : Control} {a : Str} (hne : c.state ≠ .errored) (h : lex c a = .more) :
    Reader.looks c.state = true := by
  cases hstate : c.state <;> first | rfl | simp_all [lex, takeToken]

theorem parse_comes (target : Target) (h : s.Holds c rest name) (hshows : Shows c (s.toProgress, name)) :
    ∃ r, s.parse target (name.getD []).length = some r ∧ Comes target s c rest name r ∧
      ∀ s', r = .asyncReadSome s' → s'.channel = s.channel := by
  have hsize := h.size
  have hrest : view s.buffer (name.getD []).length (s.usedSize - (name.getD []).length) = rest := by
    have hdrop := congrArg (List.drop (name.getD []).length) h.buffer
    rwa [drop_view, Nat.zero_add, List.drop_left] at hdrop
  rw [parse]
  simp only [hrest]
  generalize hl : Loop.mk { s with parser := s.parser.setBuffer rest } (name.getD []).length
    (name.getD []).length 0 [] = l
  have hholds : l.Holds c false rest name := by
    subst hl
    refine ⟨⟨h.used, hsize, ?_, h.expecting, fun n hn => ⟨h.nameSize n hn, ?_, ?_⟩⟩, ?_, nofun, ?_⟩
    · rwa [← hsize, Nat.add_sub_cancel_left] at hrest
    · rw [Option.mem_def.mp hn, Nat.zero_add]
      exact Nat.le_refl _
    · have htake := congrArg (List.take n.length) h.buffer
      rw [Option.mem_def.mp hn] at htake hsize
      rwa [take_view (by rw [← hsize]; exact Nat.le_add_right _ _), Option.getD_some,
        List.take_left] at htake
    · rw [h.parser.consume_eq]
      exact h.parser
    · rw [h.parser.consume_eq]
      rfl
  have hprogress : l.socket.toProgress = s.toProgress := by rw [← hl]
  have hfuel : lexBudget (c, rest) < 3 * s.usedSize + 4 := by
    have := lexBudget_le c rest
    omega
  obtain ⟨ks, ⟨d, q⟩, name', t, l', hrun, ht, hreads, hleft⟩ :=
    Loop.run_spec hholds (hprogress ▸ hshows) hfuel
  have hshows' := hreads.shows (hprogress ▸ hshows)
  have hchannel : l'.socket.channel = s.channel := hreads.frame.channel.trans (by rw [← hl])
  have hopen : l'.socket.isOpen = s.isOpen := hreads.frame.isOpen.trans (by rw [← hl])
  have hlength : l'.socket.buffer.length = s.buffer.length :=
    hreads.frame.length.trans (by rw [← hl])
  have hall := lexOne_stable.run_append hreads.run s.channel.arrives.flatten
  have hfits : (name.getD []).length + rest.length ≤ s.buffer.length := hsize.trans_le h.used
  have hroomy : Roomy s.buffer.length (c, false) (s.toProgress, name) (s.ahead rest) ks :=
    roomy_of_size (x := (s.toProgress, name)) hreads.run hfits _
  rw [hrun]
  cases t with
  | again => exact absurd rfl ht
  | parsingError =>
    obtain ⟨e, he⟩ := hleft
    have hlast := (run_size (x := (s.toProgress, name)) hreads.run).trans hfits
    exact ⟨_, rfl, .invalid hall hroomy (not_blocked_of_fail he hlast _) (lexOne_stable.fail he _)
      (clearBuffer_cleared _) (.of_eq hopen hlength hchannel), by simp⟩
  | enough =>
    obtain ⟨hleft, hmore, hcode⟩ := hleft
    obtain ⟨s', hcompact, hs', hsame, hchannel', hopen', hlength'⟩ := Loop.compact_spec hleft hcode
    have hahead : q ++ s.channel.arrives.flatten = s'.ahead q := by
      rw [ahead, hchannel', hchannel]
    have hwent : s.Went s' ks c rest name d q name' := by
      refine ⟨hahead ▸ hall, hroomy, ?_, hs', hsame ▸ hshows', ?_, .of_eq (hopen'.trans hopen)
        (hlength'.trans hlength) (hchannel'.trans hchannel)⟩
      · rw [← hprogress, hreads.told, hsame]
      · obtain ⟨d, ended⟩ := d
        cases ended with
        | true => rw [hleft.ended rfl]; rfl
        | false => exact looks_of_more hshows'.expected (upTo_more_iff.mp hmore)
    have hflags : target.reached l'.flags = target.hit ks := by
      refine Target.reached_eq_hit fun t => ?_
      rw [hreads.flags, ← hl]
      simp
    simp only [hcompact, Option.map_some, hflags]
    refine ⟨_, rfl, ?_⟩
    split
    · exact ⟨.hit hwent ‹_›, by simp⟩
    · have hmiss : target.hit ks = false := Bool.eq_false_of_not_eq_true ‹_›
      split
      · exact ⟨.full hwent hmiss hmore ‹_›, by simp⟩
      · refine ⟨.on hwent hmiss hmore ‹_›, fun s'' heq => ?_⟩
        cases heq
        exact hchannel'.trans hchannel

theorem Went.of_same {s₁ : Socket} {ks : List Token} {d : Control × Bool}
    (h : s₁.Went s' ks c rest name d q name') (hprogress : s₁.toProgress = s.toProgress)
    (hframe : s.Frame s₁) (hchannel : s₁.channel = s.channel) :
    s.Went s' ks c rest name d q name' where
  run := by
    have hrun := h.run
    rwa [ahead, hchannel] at hrun
  roomy := by
    have hroomy := h.roomy
    rwa [ahead, hchannel, hprogress, hframe.length] at hroomy
  told := by rw [← hprogress, h.told]
  holds := h.holds
  shows := h.shows
  looks := h.looks
  frame := hframe.trans h.frame

theorem Went.trans {s₁ s' : Socket} {ks ks' : List Token} {d : Control} {e : Control × Bool}
    {p q x : Str} {name₁ : Option Str} (h : s.Went s₁ ks c rest name (d, false) p name₁)
    {channel : Channel} (hahead : s₁.ahead p = (p ++ x) ++ channel.arrives.flatten)
    (hchannel : channel = { s₁.channel with arrives := channel.arrives })
    (h' : { s₁ with channel }.Went s' ks' d (p ++ x) name₁ e q name') :
    s.Went s' (ks ++ ks') c rest name e q name' where
  run := h.run.append (hahead ▸ h'.run)
  roomy := by
    refine h.roomy.append h.run ?_
    have hroomy := h'.roomy
    rw [h.told, hahead, ← h.frame.length]
    exact hroomy
  told := by rw [tellAll_append, h.told, ← h'.told]
  holds := h'.holds
  shows := h'.shows
  looks := h'.looks
  frame := by
    have hread : s₁.Frame { s₁ with channel } := ⟨rfl, rfl, hchannel⟩
    exact h.frame.trans (hread.trans h'.frame)

theorem Holds.receive (h : s.Holds c rest name) {x : Str}
    (hx : s.usedSize + x.length ≤ s.buffer.length) :
    { s with
      buffer := overwrite s.buffer s.usedSize x
      usedSize := s.usedSize + x.length }.Holds c (rest ++ x) name where
  parser := by
    refine ⟨h.parser.control, h.parser.code, rfl, Nat.zero_le _, ?_, ?_⟩
    · rw [List.length_append]
      exact h.parser.size.trans (Nat.le_add_right _ _)
    · change Seen c.state ((rest ++ x).take s.parser.tokenSize)
      rw [List.take_append_of_le_length (show s.parser.tokenSize ≤ rest.length from h.parser.size)]
      exact h.parser.seen
  used := by rwa [length_overwrite hx]
  buffer := by
    dsimp only
    rw [view_append, view_overwrite_before h.used (Nat.zero_add _).le, h.buffer, Nat.zero_add,
      view_overwrite hx, List.append_assoc]
  expecting := h.expecting
  nameSize := h.nameSize

theorem onAsyncReadMessage_comes (target : Target) (h : s.Holds c rest name)
    (hshows : Shows c (s.toProgress, name)) {x : Str} (hx : s.usedSize + x.length ≤ s.buffer.length) :
    ∃ r, onAsyncReadMessage target s (.ok x) = some r ∧ Comes target s c (rest ++ x) name r ∧
      ∀ s', r = .asyncReadSome s' → s'.channel = s.channel := by
  have hreceived := h.receive hx
  obtain ⟨r, hr, hcomes, hchannel⟩ := parse_comes target hreceived hshows
  refine ⟨r, ?_, ?_, hchannel⟩
  · have hsize := hreceived.size
    rw [onAsyncReadMessage, if_pos hx, ← hr]
    cases name with
    | none =>
      have hexpecting : s.expectingField = false := h.expecting
      simp [hexpecting]
    | some m =>
      have hexpecting : s.expectingField = true := h.expecting
      have hm := h.nameSize m rfl
      have hle : m.length ≤ s.usedSize + x.length := (Nat.le_add_right _ _).trans hsize.le
      simp [hexpecting, hle, hm]
  · have hframe : s.Frame { s with
        buffer := overwrite s.buffer s.usedSize x, usedSize := s.usedSize + x.length } :=
      .of_eq rfl (length_overwrite hx) rfl
    cases hcomes with
    | hit hwent hhit => exact .hit (hwent.of_same rfl hframe rfl) hhit
    | full hwent hhit hmore hfull => exact .full (hwent.of_same rfl hframe rfl) hhit hmore hfull
    | on hwent hhit hmore hfull => exact .on (hwent.of_same rfl hframe rfl) hhit hmore hfull
    | invalid hrun hroomy hlast he hcleared hframe' =>
      rw [length_overwrite hx] at hroomy hlast
      exact .invalid hrun hroomy hlast he hcleared (hframe.trans hframe')

end Socket

/-! ### From one read of the channel to the next -/

/-- How `async_read_some` of the channel ends, with room for something. -/
inductive Channel.Read (room : Nat) (ch : Channel) : Option (Except ErrorCode Str × Channel) → Prop
  | closed : ch.isOpen = false → Read room ch (some (.error .badDescriptor, ch))
  | waits : ch.isOpen = true → ch.arrives = [] → ch.ends = none → Read room ch none
  | ended {e : ErrorCode} : ch.isOpen = true → ch.arrives = [] → ch.ends = some e →
    Read room ch (some (.error e, ch))
  | ok {x : Str} {arrives : List Str} : ch.isOpen = true → x.length ≤ room →
    ch.arrives.flatten = x ++ arrives.flatten → { ch with arrives }.size < ch.size →
    Read room ch (some (.ok x, { ch with arrives }))

theorem Channel.asyncReadSome_read (ch : Channel) {room : Nat} (hroom : 0 < room) :
    ch.Read room (ch.asyncReadSome room) := by
  rw [asyncReadSome]
  cases hopen : ch.isOpen with
  | false => exact .closed hopen
  | true =>
    rw [if_neg (by simp), ← hopen]
    cases harrives : ch.arrives with
    | nil =>
      cases hends : ch.ends with
      | none => exact .waits hopen harrives hends
      | some e => exact .ended hopen harrives hends
    | cons x xs =>
      dsimp only
      by_cases hx : x.length ≤ room
      · rw [if_pos hx, List.take_of_length_le hx]
        refine .ok hopen hx (by rw [harrives]; rfl) ?_
        rw [size, size, harrives, List.map_cons, List.sum_cons]
        dsimp only
        omega
      · rw [if_neg hx]
        refine .ok hopen (List.length_take_le _ _) ?_ ?_
        · rw [harrives, List.flatten_cons, List.flatten_cons, ← List.append_assoc,
            List.take_append_drop]
        · rw [size, size, harrives, List.map_cons, List.sum_cons]
          rw [List.map_cons, List.sum_cons, List.length_drop]
          omega

theorem run_headers {c d : Control} {a q : Str} {ks : List Token}
    (h : Run (Step lex) (c, a) ks (d, q)) (hc : c.state.phase = .empty)
    (hks : ∀ k ∈ ks, k.code ≠ .endOfHeaders) :
    d.state.phase = .empty ∧ ∀ k ∈ ks, k.code ≠ .endOfMessage := by
  generalize hd : (d, q) = u at h
  induction h generalizing d q with
  | nil =>
    cases hd
    exact ⟨hc, by simp⟩
  | @snoc v w ks k _ hstep ih =>
    subst hd
    obtain ⟨n, e, hmove, heq⟩ := hstep
    obtain ⟨rfl, -⟩ := Prod.mk.inj heq
    obtain ⟨hv, hall⟩ := ih (fun k' hk' => hks k' (by simp [hk'])) rfl
    have hphase := (lex_moves hmove).leads.phase
    rw [hv] at hphase
    have hheaders := hks k (by simp)
    refine ⟨?_, fun k' hk' => ?_⟩
    · cases hcode : k.code <;> simp_all [Code.phase]
    · rcases List.mem_append.mp hk' with hk' | hk'
      · exact hall k' hk'
      · rw [List.mem_singleton.mp hk']
        intro hcode
        simp [hcode, Code.phase] at hphase

theorem Target.hit_of_mem {target : Target} {ks : List Token} {k : Token} (hk : k ∈ ks)
    (hcode : k.code.target = some target) : target.hit ks = true := by
  have hmem : target ∈ ks.filterMap fun k => k.code.target := List.mem_filterMap.mpr ⟨k, hk, hcode⟩
  cases target <;> simp [hit, reached, hmem]

theorem Target.hit_append (target : Target) (ks ks' : List Token) :
    target.hit (ks ++ ks') = (target.hit ks || target.hit ks') := by
  cases target <;> simp only [hit, reached, List.filterMap_append, List.contains_eq_mem,
    List.mem_append, Bool.decide_or, Bool.or_assoc, Bool.or_left_comm]

theorem Code.phase_ne_empty {code : Code} {p q : ReadState} (h : code.phase p = some q)
    (hend : code ≠ .endOfMessage) (hp : p ≠ .empty) : q ≠ .empty := by
  cases p <;> cases code <;> simp_all [Code.phase] <;> simp [← h]

/-- Behind the headers of a request is behind them up to its end. -/
theorem run_phase {c d : Control} {a q : Str} {ks : List Token}
    (h : Run (Step lexOne) ((c, false), a) ks ((d, false), q))
    (hc : c.state.phase ≠ .empty ∨ ∃ k ∈ ks, k.code = .endOfHeaders) : d.state.phase ≠ .empty := by
  generalize hd : ((d, false), q) = u at h
  induction h generalizing d q with
  | nil =>
    cases hd
    simpa using hc
  | @snoc v w ks k _ hstep ih =>
    subst hd
    obtain ⟨⟨e, b⟩, r⟩ := v
    obtain ⟨n, y, hmove, heq⟩ := hstep
    obtain ⟨rfl, -⟩ := Prod.mk.inj heq
    obtain ⟨rfl, hmove, hstop⟩ := upTo_take_iff.mp hmove
    have hphase := (lex_moves hmove).leads.phase
    have hend : k.code ≠ .endOfMessage := by simpa [Token.isEnd] using hstop.symm
    by_cases hheaders : k.code = .endOfHeaders
    · rw [hheaders] at hphase
      intro hempty
      rw [hempty] at hphase
      cases hp : e.state.phase <;> simp [hp, Code.phase] at hphase
    · refine Code.phase_ne_empty hphase hend (ih ?_ rfl)
      refine hc.imp_right ?_
      rintro ⟨k', hk', hcode⟩
      rcases List.mem_append.mp hk' with hk' | hk'
      · exact ⟨k', hk', hcode⟩
      · exact absurd (List.mem_singleton.mp hk' ▸ hcode) hheaders

theorem not_ended {c : Control} {a q : Str} {ks : List Token} {d : Control × Bool} {target : Target}
    (h : Run (Step lexOne) ((c, false), a) ks (d, q)) (hhit : target.hit ks = false)
    (hready : target = .ready → c.state.phase = .empty) : d.2 = false := by
  by_contra hended
  obtain ⟨k, hk, hstop⟩ := exists_stop h (Bool.eq_true_of_not_eq_false hended)
  have hend : k.code = .endOfMessage := by simpa [Token.isEnd] using hstop
  cases target with
  | ready =>
    refine (run_headers (run_of_upTo h) (hready rfl) fun k' hk' hcode => ?_).2 k hk hend
    rw [Target.hit_of_mem hk' (by rw [hcode]; rfl)] at hhit
    cases hhit
  | data =>
    have hmem : Target.ends ∈ ks.filterMap fun k => k.code.target :=
      List.mem_filterMap.mpr ⟨k, hk, by rw [hend]; rfl⟩
    simp [Target.hit, Target.reached, hmem] at hhit
  | ends =>
    rw [Target.hit_of_mem hk (by rw [hend]; rfl)] at hhit
    cases hhit

namespace Socket

variable {s s' : Socket} {c : Control} {rest q : Str} {name name' : Option Str} {target : Target}

/-- How an operation that reads ends: with what it waits for, or with a buffer that is full, or it
waits, or the channel has come to an end, or what is read is no request, or the channel is closed. -/
inductive Done (target : Target) (s : Socket) (c : Control) (rest : Str) (name : Option Str) :
    Option (Except ErrorCode Unit) → Socket → Prop
  | ok {s' : Socket} {ks : List Token} {d : Control × Bool} {q : Str} {name' : Option Str} :
    s.Went s' ks c rest name d q name' → target.hit ks = true →
    Done target s c rest name (some (.ok ())) s'
  | full {s' : Socket} {ks : List Token} {d : Control × Bool} {q : Str} {name' : Option Str} :
    s.Went s' ks c rest name d q name' → target.hit ks = false →
    Blocked s.buffer.length d name' (s'.ahead q) →
    Done target s c rest name (some (.error .bufferExhausted)) s'
  | waits {s' : Socket} {ks : List Token} {d : Control × Bool} {q : Str} {name' : Option Str} :
    s.Went s' ks c rest name d q name' → target.hit ks = false →
    ¬ Blocked s.buffer.length d name' (s'.ahead q) → lexOne d (s'.ahead q) = .more →
    s.channel.ends = none → Done target s c rest name none s'
  | ended {s' : Socket} {ks : List Token} {d : Control × Bool} {q : Str} {e : ErrorCode}
      {c' : Control} :
    Run (Step lexOne) ((c, false), s.ahead rest) ks (d, q) →
    Roomy s.buffer.length (c, false) (s.toProgress, name) (s.ahead rest) ks →
    ¬ Blocked s.buffer.length d (tellAll (s.toProgress, name) ks).2 q → target.hit ks = false →
    lexOne d q = .more → s.channel.ends = some e → s'.Cleared c' → s.Frame s' →
    Done target s c rest name (some (.error e)) s'
  | invalid {s' : Socket} {ks : List Token} {d : Control × Bool} {q : Str} {e : Code} {c' : Control} :
    Run (Step lexOne) ((c, false), s.ahead rest) ks (d, q) →
    Roomy s.buffer.length (c, false) (s.toProgress, name) (s.ahead rest) ks →
    ¬ Blocked s.buffer.length d (tellAll (s.toProgress, name) ks).2 q → lexOne d q = .fail e →
    s'.Cleared c' → s.Frame s' → Done target s c rest name (some (.error .parsingError)) s'
  | closed {s' : Socket} {c' : Control} : s.channel.isOpen = false → s'.Cleared c' → s.Frame s' →
    Done target s c rest name (some (.error .badDescriptor)) s'

theorem Comes.behind {s₁ : Socket} {ks : List Token} {d : Control} {p x : Str} {name₁ : Option Str}
    (h : s.Went s₁ ks c rest name (d, false) p name₁) (hhit : target.hit ks = false)
    {channel : Channel} (hahead : s₁.ahead p = (p ++ x) ++ channel.arrives.flatten)
    (hchannel : channel = { s₁.channel with arrives := channel.arrives }) {r : Reached}
    (hr : Comes target { s₁ with channel } d (p ++ x) name₁ r) : Comes target s c rest name r := by
  cases hr with
  | hit hwent hhit' =>
    exact .hit (h.trans hahead hchannel hwent) (by rw [Target.hit_append, hhit', Bool.or_true])
  | full hwent hhit' hmore hfull =>
    exact .full (h.trans hahead hchannel hwent) (by rw [Target.hit_append, hhit, hhit']; rfl) hmore
      hfull
  | on hwent hhit' hmore hfull =>
    exact .on (h.trans hahead hchannel hwent) (by rw [Target.hit_append, hhit, hhit']; rfl) hmore
      hfull
  | invalid hrun hroomy hlast he hcleared hframe =>
    have hread : s₁.Frame { s₁ with channel } := ⟨rfl, rfl, hchannel⟩
    have hrun' := h.run
    rw [hahead] at hrun'
    have hlength : s₁.buffer.length = s.buffer.length := h.frame.length
    refine .invalid (hrun'.append hrun) (h.roomy.append hrun' ?_) ?_ he hcleared
      (h.frame.trans (hread.trans hframe))
    · rw [h.told, ← hlength]
      exact hroomy
    · rw [tellAll_append, h.told, ← hlength]
      exact hlast

/-- However the bytes arrive, the operation ends in one of these ways. -/
theorem readOn_done {fuel : Nat} {r : Reached} (hcomes : Comes target s c rest name r)
    (hready : target = .ready → c.state.phase = .empty)
    (hfuel : ∀ s', r = .asyncReadSome s' → s'.channel.size < fuel) :
    ∃ result s', readOn target fuel r = some (result, s') ∧ Done target s c rest name result s' := by
  have hfull' {s₁ : Socket} {ks : List Token} {d : Control × Bool} {q : Str} {name₁ : Option Str}
      (hwent : s.Went s₁ ks c rest name d q name₁) (hhit : target.hit ks = false)
      (hmore : lexOne d q = .more) (hfull : s₁.usedSize = s₁.buffer.length) :
      Done target s c rest name (some (.error .bufferExhausted)) s₁ :=
    .full hwent hhit ⟨q, _, rfl, by rw [hwent.holds.size, hfull, hwent.frame.length], hmore⟩
  induction fuel generalizing r with
  | zero =>
    cases hcomes with
    | on => exact absurd (hfuel _ rfl) (Nat.not_lt_zero _)
    | hit hwent hhit => exact ⟨_, _, rfl, .ok hwent hhit⟩
    | full hwent hhit hmore hfull => exact ⟨_, _, rfl, hfull' hwent hhit hmore hfull⟩
    | invalid hrun hroomy hlast he hcleared hframe =>
      exact ⟨_, _, rfl, .invalid hrun hroomy hlast he hcleared hframe⟩
  | succ fuel ih =>
    cases hcomes with
    | hit hwent hhit => exact ⟨_, _, rfl, .ok hwent hhit⟩
    | full hwent hhit hmore hfull => exact ⟨_, _, rfl, hfull' hwent hhit hmore hfull⟩
    | invalid hrun hroomy hlast he hcleared hframe =>
      exact ⟨_, _, rfl, .invalid hrun hroomy hlast he hcleared hframe⟩
    | @on s₁ ks d q name₁ hwent hhit hmore hfull =>
      have hused := hwent.holds.used
      have hended := not_ended hwent.run hhit hready
      have hframe := hwent.frame
      have hroom : 0 < s₁.buffer.length - s₁.usedSize := by omega
      have hlast : ¬ Blocked s.buffer.length d name₁ q := by
        refine not_blocked_of_lt ?_
        rw [hwent.holds.size, ← hframe.length]
        omega
      obtain ⟨d, ended⟩ := d
      cases hended
      rw [readOn]
      have hread := s₁.channel.asyncReadSome_read hroom
      generalize s₁.channel.asyncReadSome (s₁.buffer.length - s₁.usedSize) = read at hread
      -- an error of the channel clears the buffer
      have herror (e : ErrorCode) : (onAsyncReadMessage target s₁ (.error e)).bind (readOn target fuel) =
          some (some (.error e), s₁.clearBuffer) := by
        rw [onAsyncReadMessage, Option.bind_some, readOn]
      have hcleared : s.Frame s₁.clearBuffer := ⟨hframe.isOpen, hframe.length, hframe.channel⟩
      cases hread with
      | closed hclosed =>
        rw [hframe.channel] at hclosed
        exact ⟨_, _, herror _, .closed hclosed (clearBuffer_cleared _) hcleared⟩
      | waits hopen harrives hends =>
        have hahead : s₁.ahead q = q := by rw [ahead, harrives, List.flatten_nil, List.append_nil]
        rw [hframe.channel] at hends
        exact ⟨_, _, rfl, .waits hwent hhit (by rwa [hahead]) (by rwa [hahead]) hends⟩
      | ended hopen harrives hends =>
        have hahead : s₁.ahead q = q := by rw [ahead, harrives, List.flatten_nil, List.append_nil]
        rw [hframe.channel] at hends
        have hrun := hwent.run
        rw [hahead] at hrun
        have htold := hwent.told
        exact ⟨_, _, herror _, .ended hrun hwent.roomy (by rwa [htold]) hhit hmore hends
          (clearBuffer_cleared _) hcleared⟩
      | @ok x arrives hopen hx hflatten hsize =>
        have hfits : s₁.usedSize + x.length ≤ s₁.buffer.length := by omega
        have hahead : s₁.ahead q = (q ++ x) ++ arrives.flatten := by
          rw [ahead, hflatten, List.append_assoc]
        have hholds : { s₁ with channel := { s₁.channel with arrives } }.Holds d q name₁ :=
          ⟨hwent.holds.parser, hwent.holds.used, hwent.holds.buffer, hwent.holds.expecting,
            hwent.holds.nameSize⟩
        obtain ⟨r, hr, hcomes', hchannel⟩ := onAsyncReadMessage_comes target hholds hwent.shows hfits
        dsimp only
        rw [hr, Option.bind_some]
        refine ih (hcomes'.behind hwent hhit hahead rfl) fun s' hs' => ?_
        have hlast := hfuel _ rfl
        rw [hchannel s' hs']
        exact Nat.lt_of_lt_of_le hsize (Nat.le_of_lt_succ hlast)

/-- What holds of the socket between its operations. -/
structure Keeps (s : Socket) (c : Control) (rest : Str) (name : Option Str) : Prop
    extends s.Holds c rest name where
  shows : Shows c (s.toProgress, name)
  looks : Reader.looks c.state = true
  room : 0 < s.buffer.length

theorem Cleared.keeps (h : s.Cleared c) (hroom : 0 < s.buffer.length) : s.Keeps c [] none :=
  ⟨h.holds, h.shows, by rw [h.state]; rfl, hroom⟩

theorem Went.keeps {ks : List Token} {d : Control × Bool} (h : s.Went s' ks c rest name d q name')
    (hroom : 0 < s.buffer.length) : s'.Keeps d.1 q name' :=
  ⟨h.holds, h.shows, h.looks, h.frame.length ▸ hroom⟩

/-- However an operation ends, the next one can begin. -/
theorem Done.keeps {result : Option (Except ErrorCode Unit)}
    (h : Done target s c rest name result s') (hroom : 0 < s.buffer.length) :
    ∃ c' rest' name', s'.Keeps c' rest' name' := by
  cases h with
  | ok hwent | full hwent | waits hwent => exact ⟨_, _, _, hwent.keeps hroom⟩
  | ended _ _ _ _ _ _ hcleared hframe | invalid _ _ _ _ hcleared hframe
  | closed _ hcleared hframe =>
    exact ⟨_, _, _, hcleared.keeps (hframe.length ▸ hroom)⟩

theorem Done.frame {result : Option (Except ErrorCode Unit)}
    (h : Done target s c rest name result s') : s.Frame s' := by
  cases h with
  | ok hwent | full hwent | waits hwent => exact hwent.frame
  | ended _ _ _ _ _ _ _ hframe | invalid _ _ _ _ _ hframe | closed _ _ hframe => exact hframe

/-- An operation that reads goes through what has been kept, and then through what arrives. -/
theorem schedule_done (target : Target) (h : s.Keeps c rest name)
    (hready : target = .ready → c.state.phase = .empty) :
    ∃ result s', scheduleOnAsyncReadMessage target s = some (result, s') ∧
      Done target s c rest name result s' := by
  rw [scheduleOnAsyncReadMessage]
  by_cases hused : s.usedSize = 0
  · rw [if_neg (not_not.mpr hused)]
    have hsize := h.size
    have hrest : rest = [] := List.length_eq_zero_iff.mp (by omega)
    subst hrest
    have hfull : s.usedSize ≠ s.buffer.length := by
      have := h.room
      omega
    refine readOn_done (.on ⟨.nil, roomy_nil, rfl, h.toHolds, h.shows, h.looks, .of_eq rfl rfl rfl⟩ ?_
      (upTo_more_iff.mpr (Reader.lex_nil h.looks)) hfull) hready fun s' hs' => ?_
    · cases target <;> rfl
    · cases hs'
      exact Nat.lt_add_one _
  · rw [if_pos hused]
    have hnothing : s.usedSize + ([] : Str).length ≤ s.buffer.length := h.used
    obtain ⟨r, hr, hcomes, hchannel⟩ :=
      onAsyncReadMessage_comes target h.toHolds h.shows hnothing
    rw [List.append_nil] at hcomes
    rw [hr, Option.bind_some]
    refine readOn_done hcomes hready fun s' hs' => ?_
    rw [hchannel s' hs']
    exact Nat.lt_add_one _

end Socket

end Http

end Wye
