import NeOs.Library.Run

/-! `bin/cat.c` against every schedule of the kernel. A state of the run is where the loop stands
and what has happened to the bytes of the file; an action is the answer of the kernel to the
system call that the loop is making. The result of `write` is not looked at. -/
namespace NeOs
open Library Library.Run
namespace Cat

/-- `bufsize`. -/
def bufsize : ℕ := 4096

inductive Phase
  | reading
  | writing (buf : List UInt8)
  | returned (code : ℤ)
  deriving Repr, DecidableEq

structure State where
  /-- What `read` has not delivered yet. -/
  rest : List UInt8
  /-- What standard output has accepted. -/
  accepted : List UInt8
  phase : Phase
  deriving Repr, DecidableEq

inductive Answer
  | read (n : ℕ)
  | readError
  | wrote (n : ℕ)
  | writeError
  deriving Repr, DecidableEq

/-- The beginning of `main`: `fd` is the result of `open`. -/
def start (argc fd : ℤ) (content : List UInt8) : State :=
  if argc < 2 then ⟨content,[],.returned 1⟩
  else if fd < 0 then ⟨content,[],.returned 2⟩
  else ⟨content,[],.reading⟩

/-- One system call of the loop. An answer that the kernel cannot give there has no successor:
`read` returns zero at the end of the file only, and otherwise between one byte and `bufsize`;
`write` accepts at most the bytes offered. -/
def step (c : State) (a : Answer) : Option State :=
  match c.phase,a with
  | .reading,.read n =>
    if n=0 then
      if c.rest=[] then some { c with phase := .returned 0 } else none
    else if n ≤ bufsize ∧ n ≤ c.rest.length then
      some { c with rest := c.rest.drop n, phase := .writing (c.rest.take n) }
    else none
  | .reading,.readError => some { c with phase := .returned 3 }
  | .writing buf,.wrote n =>
    if n ≤ buf.length then some { c with accepted := c.accepted++buf.take n, phase := .reading }
    else none
  | .writing _,.writeError => some { c with phase := .reading }
  | _,_ => none

/-- The bytes read and not yet offered to `write`. -/
def pending (c : State) : List UInt8 :=
  match c.phase with
  | .writing buf => buf
  | _ => []

/-- What has been accepted is a prefix of the file, and all of it if zero is returned. -/
def Delivered (content : List UInt8) (c : State) : Prop :=
  c.accepted.IsPrefix content ∧ (c.phase=.returned 0 → c.accepted=content)

/-- Of the `size` bytes of the file some have been read and were not accepted. -/
def Lost (size : ℕ) (c : State) : Prop :=
  c.accepted.length+(pending c).length+c.rest.length < size

/-- After a loss, no further byte is accepted and the end of the file is not reached. -/
def QuietAfterLoss (size : ℕ) (c : State) (a : Answer) : Prop :=
  Lost size c → (step c a).isSome → a≠.read 0 ∧ ∀ n, a=.wrote n → n=0

instance (size : ℕ) (c : State) : Decidable (Lost size c) := inferInstanceAs (Decidable (_ < _))

instance (size : ℕ) (c : State) : ∀ a, Decidable (QuietAfterLoss size c a)
  | .wrote n => decidable_of_iff (Lost size c → (step c (.wrote n)).isSome → n=0)
      (by simp [QuietAfterLoss])
  | .read n => decidable_of_iff (Lost size c → (step c (.read n)).isSome → n≠0)
      (by simp [QuietAfterLoss])
  | .readError => isTrue (by simp [QuietAfterLoss])
  | .writeError => isTrue (by simp [QuietAfterLoss])

/-- All that one step can do. -/
theorem step_cases {c t : State} {a : Answer} (h : step c a=some t) :
    (∃ n, a=.read n ∧ c.phase=.reading ∧ 1 ≤ n ∧ n ≤ bufsize ∧ n ≤ c.rest.length ∧
      t=⟨c.rest.drop n,c.accepted,.writing (c.rest.take n)⟩) ∨
    (a=.read 0 ∧ c.phase=.reading ∧ c.rest=[] ∧ t=⟨c.rest,c.accepted,.returned 0⟩) ∨
    (a=.readError ∧ c.phase=.reading ∧ t=⟨c.rest,c.accepted,.returned 3⟩) ∨
    (∃ n buf, a=.wrote n ∧ c.phase=.writing buf ∧ n ≤ buf.length ∧
      t=⟨c.rest,c.accepted++buf.take n,.reading⟩) ∨
    (∃ buf, a=.writeError ∧ c.phase=.writing buf ∧ t=⟨c.rest,c.accepted,.reading⟩) := by
  obtain ⟨rest,accepted,phase⟩ := c
  cases phase with
  | reading =>
    cases a with
    | read n =>
      simp only [step] at h
      split_ifs at h with hn hr hb
      · cases h
        exact Or.inr (Or.inl ⟨by rw [hn],rfl,hr,rfl⟩)
      · cases h
        exact Or.inl ⟨n,rfl,rfl,by omega,hb.1,hb.2,rfl⟩
    | readError =>
      cases h
      exact Or.inr (Or.inr (Or.inl ⟨rfl,rfl,rfl⟩))
    | wrote n => cases h
    | writeError => cases h
  | writing buf =>
    cases a with
    | read n => cases h
    | readError => cases h
    | wrote n =>
      simp only [step] at h
      split_ifs at h with hn
      cases h
      exact Or.inr (Or.inr (Or.inr (Or.inl ⟨n,buf,rfl,rfl,hn,rfl⟩)))
    | writeError =>
      cases h
      exact Or.inr (Or.inr (Or.inr (Or.inr ⟨buf,rfl,rfl,rfl⟩)))
  | returned code => cases a <;> cases h

theorem step_read {c : State} {n : ℕ} (hp : c.phase=.reading) (h1 : 1 ≤ n) (hb : n ≤ bufsize)
    (hn : n ≤ c.rest.length) :
    step c (.read n)=some ⟨c.rest.drop n,c.accepted,.writing (c.rest.take n)⟩ := by
  have h0 : n≠0 := by omega
  simp [step,hp,h0,hb,hn]

theorem step_eof {c : State} (hp : c.phase=.reading) (hr : c.rest=[]) :
    step c (.read 0)=some ⟨c.rest,c.accepted,.returned 0⟩ := by
  simp [step,hp,hr]

theorem step_readError {c : State} (hp : c.phase=.reading) :
    step c .readError=some ⟨c.rest,c.accepted,.returned 3⟩ := by
  simp [step,hp]

theorem step_wrote {c : State} {n : ℕ} {buf : List UInt8} (hp : c.phase=.writing buf)
    (hn : n ≤ buf.length) :
    step c (.wrote n)=some ⟨c.rest,c.accepted++buf.take n,.reading⟩ := by
  simp [step,hp,hn]

theorem step_writeError {c : State} {buf : List UInt8} (hp : c.phase=.writing buf) :
    step c .writeError=some ⟨c.rest,c.accepted,.reading⟩ := by
  simp [step,hp]

/-- Nothing lost so far, or quiet since the loss. -/
structure Sound (content : List UInt8) (c : State) : Prop where
  delivered : Delivered content c
  whole_or_lost : c.accepted++(pending c++c.rest)=content ∨ Lost content.length c

theorem sound_start (argc fd : ℤ) (content : List UInt8) : Sound content (start argc fd content) := by
  unfold start
  split_ifs
  all_goals exact ⟨⟨List.nil_prefix,by simp⟩,Or.inl rfl⟩

theorem Sound.step {content : List UInt8} {c t : State} {a : Answer} (h : Sound content c)
    (hq : QuietAfterLoss content.length c a) (hs : step c a=some t) : Sound content t := by
  have hquiet := fun hl => hq hl (by rw [hs]; rfl)
  obtain ⟨⟨hpre,hcode⟩,hwl⟩ := h
  obtain ⟨n,rfl,hp,h1,hb,hn,rfl⟩ | ⟨rfl,hp,hr,rfl⟩ | ⟨rfl,hp,rfl⟩ | ⟨n,buf,rfl,hp,hn,rfl⟩ |
    ⟨buf,rfl,hp,rfl⟩ := step_cases hs
  · refine ⟨⟨hpre,by simp⟩,hwl.imp (fun hw => ?_) fun hl => ?_⟩
    · simpa [pending,hp] using hw
    · simp only [Lost,pending,hp,List.length_nil,List.length_take,List.length_drop] at hl ⊢
      omega
  · -- the end of the file: quiet means that nothing has been lost
    have hw : c.accepted=content := by
      rcases hwl with hw | hl
      · simpa [pending,hp,hr] using hw
      · exact absurd rfl (hquiet hl).1
    exact ⟨⟨hpre,fun _ => hw⟩,Or.inl (by simpa [pending,hr] using hw)⟩
  · refine ⟨⟨hpre,by simp⟩,?_⟩
    simpa [Lost,pending,hp] using hwl
  · rcases hwl with hw | hl
    · simp only [pending,hp] at hw
      refine ⟨⟨?_,by simp⟩,?_⟩
      · refine ⟨buf.drop n++c.rest,?_⟩
        rw [List.append_assoc,← List.append_assoc (buf.take n),List.take_append_drop]
        exact hw
      · by_cases hfull : n=buf.length
        · left
          rw [hfull,List.take_length]
          simpa [pending] using hw
        · right
          have hlen := congrArg List.length hw
          simp only [Lost,pending,List.length_append,List.length_take,List.length_nil] at hlen ⊢
          omega
    · obtain rfl := (hquiet hl).2 n rfl
      refine ⟨⟨by simpa using hpre,by simp⟩,Or.inr ?_⟩
      simp only [Lost,pending,hp,List.take_zero,List.append_nil,List.length_nil] at hl ⊢
      omega
  · refine ⟨⟨hpre,by simp⟩,?_⟩
    rcases hwl with hw | hl
    · simp only [pending,hp] at hw
      by_cases hbuf : buf=[]
      · left
        simpa [pending,hbuf] using hw
      · right
        have hpos := List.length_pos_iff.mpr hbuf
        have hlen := congrArg List.length hw
        simp only [Lost,pending,List.length_append,List.length_nil] at hlen ⊢
        omega
    · right
      simp only [Lost,pending,hp,List.length_nil] at hl ⊢
      omega

/-- A quiet run delivers at every moment. -/
theorem quiet_delivers (argc fd : ℤ) {content : List UInt8} {answers : List Answer}
    (h : Along step (QuietAfterLoss content.length) (start argc fd content) answers) :
    Throughout step (Delivered content) (start argc fd content) answers := by
  intro pre t hpre hrun
  exact (throughout_of_along (fun s a t hs hq ht => Sound.step hs hq ht)
    (sound_start argc fd content) h pre t hpre hrun).delivered

section Exact

/-- Two runs that differ in the bytes only. -/
structure SameShape (c c' : State) : Prop where
  accepted_length : c.accepted.length=c'.accepted.length
  rest_length : c.rest.length=c'.rest.length
  phase_like : (c.phase=.reading ∧ c'.phase=.reading) ∨
    (∃ b b', c.phase=.writing b ∧ c'.phase=.writing b' ∧ b.length=b'.length) ∨
    ∃ k, c.phase=.returned k ∧ c'.phase=.returned k

/-- Neither `cat` nor the kernel looks at the bytes. -/
theorem SameShape.step {c c' t : State} {a : Answer} (h : SameShape c c') (hs : step c a=some t) :
    ∃ t', step c' a=some t' ∧ SameShape t t' := by
  obtain ⟨hacc,hrest,hph⟩ := h
  obtain ⟨n,rfl,hp,h1,hb,hn,rfl⟩ | ⟨rfl,hp,hr,rfl⟩ | ⟨rfl,hp,rfl⟩ | ⟨n,buf,rfl,hp,hn,rfl⟩ |
    ⟨buf,rfl,hp,rfl⟩ := step_cases hs
  · have hp' : c'.phase=.reading := by simpa [hp] using hph
    refine ⟨_,step_read hp' h1 hb (by omega),hacc,?_,?_⟩
    · simp only [List.length_drop]
      omega
    · exact Or.inr (Or.inl ⟨_,_,rfl,rfl,by simp only [List.length_take]; omega⟩)
  · have hp' : c'.phase=.reading := by simpa [hp] using hph
    have hr' : c'.rest=[] := List.length_eq_zero_iff.mp (by rw [← hrest,hr]; rfl)
    exact ⟨_,step_eof hp' hr',hacc,hrest,Or.inr (Or.inr ⟨0,rfl,rfl⟩)⟩
  · have hp' : c'.phase=.reading := by simpa [hp] using hph
    exact ⟨_,step_readError hp',hacc,hrest,Or.inr (Or.inr ⟨3,rfl,rfl⟩)⟩
  · obtain ⟨buf',hp',hlen⟩ : ∃ b', c'.phase=.writing b' ∧ buf.length=b'.length := by
      simpa [hp] using hph
    refine ⟨_,step_wrote hp' (by omega),?_,hrest,Or.inl ⟨rfl,rfl⟩⟩
    simp only [List.length_append,List.length_take]
    omega
  · obtain ⟨buf',hp',hlen⟩ : ∃ b', c'.phase=.writing b' ∧ buf.length=b'.length := by
      simpa [hp] using hph
    exact ⟨_,step_writeError hp',hacc,hrest,Or.inl ⟨rfl,rfl⟩⟩

theorem sameShape_start (argc fd : ℤ) {content content' : List UInt8}
    (h : content.length=content'.length) :
    SameShape (start argc fd content) (start argc fd content') := by
  unfold start
  split_ifs
  · exact ⟨rfl,h,Or.inr (Or.inr ⟨1,rfl,rfl⟩)⟩
  · exact ⟨rfl,h,Or.inr (Or.inr ⟨2,rfl,rfl⟩)⟩
  · exact ⟨rfl,h,Or.inl ⟨rfl,rfl⟩⟩

/-- The pending bytes and the unread ones are the end of the file. -/
def AtEnd (content : List UInt8) (c : State) : Prop := (pending c++c.rest).IsSuffix content

theorem AtEnd.step {content : List UInt8} {c t : State} {a : Answer} (h : AtEnd content c)
    (hs : step c a=some t) : AtEnd content t := by
  unfold AtEnd at *
  obtain ⟨n,rfl,hp,h1,hb,hn,rfl⟩ | ⟨rfl,hp,hr,rfl⟩ | ⟨rfl,hp,rfl⟩ | ⟨n,buf,rfl,hp,hn,rfl⟩ |
    ⟨buf,rfl,hp,rfl⟩ := step_cases hs
  · simpa [pending,hp] using h
  · simpa [pending,hp] using h
  · simpa [pending,hp] using h
  · exact (List.suffix_append buf c.rest).trans (by simpa [pending,hp] using h)
  · exact (List.suffix_append buf c.rest).trans (by simpa [pending,hp] using h)

theorem atEnd_run (argc fd : ℤ) {content : List UInt8} {answers : List Answer} {t : State}
    (h : run step (start argc fd content) answers=some t) : AtEnd content t := by
  have hstart : AtEnd content (start argc fd content) := by
    unfold start
    split_ifs
    all_goals exact List.suffix_refl content
  exact run_invariant (fun s a t hs ht => AtEnd.step hs ht) hstart h

/-- A byte accepted after a loss is out of place in the file whose only byte one stands there. -/
theorem overtaken_not_prefix {content accepted buf rest : List UInt8} {n : ℕ} (hn : 1 ≤ n)
    (hbuf : 1 ≤ buf.length) (hlost : accepted.length+buf.length+rest.length < content.length)
    (hend : (buf++rest).IsSuffix content)
    (hone : content=List.replicate (content.length-(buf++rest).length) 0++
      1::List.replicate ((buf++rest).length-1) 0) :
    ¬(accepted++buf.take n).IsPrefix content := by
  intro hpre
  obtain ⟨consumed,hc⟩ := hend
  have hclen : consumed.length=content.length-(buf++rest).length := by
    have := congrArg List.length hc
    rw [List.length_append] at this
    omega
  have hsum : (buf++rest).length=buf.length+rest.length := List.length_append
  -- the byte accepted first is the one at the front of the pending bytes
  have hfront : (accepted++buf.take n)[accepted.length]?=content[consumed.length]? := by
    rw [List.getElem?_append_right le_rfl,Nat.sub_self,← hc,
      List.getElem?_append_right le_rfl,Nat.sub_self,List.getElem?_append_left (by omega),
      List.getElem?_take_of_lt (by omega)]
  have hplace : (accepted++buf.take n)[accepted.length]?=content[accepted.length]? := by
    obtain ⟨tail,ht⟩ := hpre
    rw [← ht]
    refine (List.getElem?_append_left ?_).symm
    simp only [List.length_append,List.length_take]
    omega
  have hzero : content[accepted.length]?=some 0 := by
    rw [hone,List.getElem?_append_left (by rw [List.length_replicate]; omega)]
    exact List.getElem?_replicate_of_lt (by omega)
  have hone' : content[consumed.length]?=some 1 := by
    rw [hone,hclen,List.getElem?_append_right (by rw [List.length_replicate])]
    simp
  rw [hplace,hzero,hone'] at hfront
  exact absurd hfront (by decide)

/-- Returning zero after a loss. -/
theorem eof_not_delivered {content : List UInt8} {c t : State} (hlost : Lost content.length c)
    (ht : step c (.read 0)=some t) : ¬Delivered content t := by
  intro hdel
  obtain ⟨n,hn,-,h1,-⟩ | ⟨-,hp,-,rfl⟩ | ⟨hn,-⟩ | ⟨n,buf,hn,-⟩ | ⟨buf,hn,-⟩ := step_cases ht
  · cases hn
    omega
  · have heq := congrArg List.length (hdel.2 rfl)
    simp only [Lost] at hlost
    simp only at heq
    omega
  · cases hn
  · cases hn
  · cases hn

theorem step_wrote_inv {c t : State} {n : ℕ} (ht : step c (.wrote n)=some t) :
    ∃ buf, c.phase=.writing buf ∧ n ≤ buf.length := by
  obtain ⟨m,hm,-⟩ | ⟨hm,-⟩ | ⟨hm,-⟩ | ⟨m,buf,hm,hp,hmb,-⟩ | ⟨buf,hm,-⟩ := step_cases ht
  · cases hm
  · cases hm
  · cases hm
  · cases hm
    exact ⟨buf,hp,hmb⟩
  · cases hm

/-- A byte accepted after a loss is out of place in some file of the same size: the schedule is run
on the file with a single one at the position of the pending bytes. -/
theorem overtaken_fails (argc fd : ℤ) {content : List UInt8} {pre : List Answer} {c t : State}
    {n : ℕ} (hrun : run step (start argc fd content) pre=some c) (hlost : Lost content.length c)
    (hn : 1 ≤ n) (ht : step c (.wrote n)=some t) :
    ∃ content' t', content'.length=content.length ∧
      run step (start argc fd content') (pre++[.wrote n])=some t' ∧ ¬Delivered content' t' := by
  obtain ⟨buf,hp,hmb⟩ := step_wrote_inv ht
  have hpend : pending c=buf := by simp [pending,hp]
  simp only [Lost,hpend] at hlost
  let q := (buf++c.rest).length
  have hq : q=buf.length+c.rest.length := List.length_append
  let content' : List UInt8 := List.replicate (content.length-q) 0++1::List.replicate (q-1) 0
  have hlen' : content'.length=content.length := by
    simp only [content',List.length_append,List.length_replicate,List.length_cons]
    omega
  obtain ⟨c',hrun',hshape⟩ := run_simulates (fun s s' a t => SameShape.step)
    (sameShape_start argc fd hlen'.symm) hrun
  obtain ⟨b',hp',hb'⟩ : ∃ b', c'.phase=.writing b' ∧ buf.length=b'.length := by
    simpa [hp] using hshape.phase_like
  have hend := atEnd_run argc fd hrun'
  have hpend' : pending c'=b' := by simp [pending,hp']
  rw [AtEnd,hpend'] at hend
  have hacc := hshape.accepted_length
  have hrest := hshape.rest_length
  have hq' : (b'++c'.rest).length=q := by
    rw [List.length_append,hq]
    omega
  have hstep' := step_wrote (n := n) hp' (by omega)
  have hnext : run step (start argc fd content') (pre++[.wrote n])=
      some ⟨c'.rest,c'.accepted++b'.take n,.reading⟩ := by
    simp [run_append,hrun',hstep']
  refine ⟨content',_,hlen',hnext,fun hdel => ?_⟩
  refine overtaken_not_prefix hn (by omega) (by omega) hend ?_ hdel.1
  rw [hlen',hq']

/-- In every run that is quiet after the first loss, what has been accepted is at every moment a
prefix of the file, and all of it if zero is returned. Conversely, a schedule of answers that
serves every file of some size is quiet on all of them. -/
theorem delivers_when_quiet (argc fd : ℤ) (answers : List Answer) :
    (∀ content, Along step (QuietAfterLoss content.length) (start argc fd content) answers →
      Throughout step (Delivered content) (start argc fd content) answers) ∧
    ∀ size, (∀ content : List UInt8, content.length=size →
        Throughout step (Delivered content) (start argc fd content) answers) →
      ∀ content : List UInt8, content.length=size →
        Along step (QuietAfterLoss size) (start argc fd content) answers := by
  refine ⟨fun content => quiet_delivers argc fd,?_⟩
  rintro _ h content rfl
  by_contra hnot
  obtain ⟨pre,a,c,hpre,hrun,hloud⟩ := exists_of_not_along hnot
  unfold QuietAfterLoss at hloud
  push Not at hloud
  obtain ⟨hlost,hsome,hloud⟩ := hloud
  obtain ⟨t,ht⟩ := Option.isSome_iff_exists.mp hsome
  by_cases heof : a=.read 0
  · subst heof
    have hnext : run step (start argc fd content) (pre++[.read 0])=some t := by
      simp [run_append,hrun,ht]
    exact eof_not_delivered hlost ht (h content rfl _ t hpre hnext)
  · obtain ⟨n,rfl,hn⟩ := hloud heof
    obtain ⟨content',t',hlen,hrun',hfail⟩ := overtaken_fails argc fd hrun hlost (by omega) ht
    exact hfail (h content' hlen _ t' hpre hrun')

/-- Both bytes are lost, and then reading ends with an error. -/
theorem delivers_when_quiet_refused :
    ∃ t, run step (start 2 3 [97,98]) [.read 1,.wrote 0,.read 1,.writeError,.readError]=some t ∧
      Lost 2 t ∧ Throughout step (Delivered [97,98]) (start 2 3 [97,98])
        [.read 1,.wrote 0,.read 1,.writeError,.readError] :=
  ⟨_,rfl,by decide,(delivers_when_quiet 2 3 _).1 [97,98] (by decide)⟩

/-- A file of two bytes, read one at a time: the first byte is not accepted, the second one is,
and zero is returned. -/
theorem short_write_fails :
    ∃ t, run step (start 2 3 [97,98]) [.read 1,.wrote 0,.read 1,.wrote 1,.read 0]=some t ∧
      t.phase=.returned 0 ∧ t.accepted=[98] ∧ ¬Delivered [97,98] t := by
  refine ⟨_,rfl,rfl,rfl,?_⟩
  intro h
  exact absurd (h.2 rfl) (by decide)

end Exact

section AllRuns

/-- An upper bound of the calls of `read` and `write` that are left. -/
def callsLeft (c : State) : ℕ :=
  match c.phase with
  | .reading => 2*c.rest.length+1
  | .writing _ => 2*c.rest.length+2
  | .returned _ => 0

theorem callsLeft_step {c t : State} {a : Answer} (h : step c a=some t) :
    callsLeft t < callsLeft c := by
  obtain ⟨n,-,hp,h1,-,hn,rfl⟩ | ⟨-,hp,-,rfl⟩ | ⟨-,hp,rfl⟩ | ⟨n,buf,-,hp,-,rfl⟩ | ⟨buf,-,hp,rfl⟩ :=
    step_cases h
  · simp only [callsLeft,hp,List.length_drop]
    omega
  · simp [callsLeft,hp]
  · simp [callsLeft,hp]
  · simp [callsLeft,hp]
  · simp [callsLeft,hp]

/-- The accepted bytes come before those that are pending, and these before the unread ones. -/
def InOrder (content : List UInt8) (c : State) : Prop :=
  (c.accepted++(pending c++c.rest)).Sublist content ∧ (c.phase=.returned 0 → c.rest=[])

theorem InOrder.step {content : List UInt8} {c t : State} {a : Answer} (h : InOrder content c)
    (hs : step c a=some t) : InOrder content t := by
  obtain ⟨hsub,-⟩ := h
  obtain ⟨n,-,hp,-,-,-,rfl⟩ | ⟨-,hp,hr,rfl⟩ | ⟨-,hp,rfl⟩ | ⟨n,buf,-,hp,-,rfl⟩ | ⟨buf,-,hp,rfl⟩ :=
    step_cases hs
  · refine ⟨?_,by simp⟩
    simpa [pending,hp] using hsub
  · refine ⟨?_,fun _ => hr⟩
    simpa [pending,hp] using hsub
  · refine ⟨?_,by simp⟩
    simpa [pending,hp] using hsub
  · refine ⟨List.Sublist.trans ?_ hsub,by simp⟩
    have htake := (List.take_sublist n buf).append_right c.rest
    simpa [pending,hp] using htake
  · refine ⟨List.Sublist.trans ?_ hsub,by simp⟩
    simp [pending,hp]

/-- However the kernel answers, standard output has at every moment accepted bytes of the file in
their order, none of them twice. The run goes on until `main` returns, after at most two calls of
`read` and `write` for each byte and one more, and `main` returns zero only at the end of the file. -/
theorem run_in_order (argc fd : ℤ) {content : List UInt8} {answers : List Answer} {t : State}
    (h : run step (start argc fd content) answers=some t) :
    (t.accepted++(pending t++t.rest)).Sublist content ∧ answers.length ≤ 2*content.length+1 ∧
    ((∀ code, t.phase≠.returned code) → ∃ a, (step t a).isSome) ∧
    (t.phase=.returned 0 → t.rest=[]) := by
  have hstart : InOrder content (start argc fd content) := by
    unfold start
    split_ifs
    all_goals exact ⟨List.Sublist.refl content,by simp⟩
  have hleft : callsLeft (start argc fd content) ≤ 2*content.length+1 := by
    unfold start
    split_ifs <;> simp [callsLeft]
  obtain ⟨hsub,hend⟩ := run_invariant (fun _ _ _ hs ht => InOrder.step hs ht) hstart h
  have hlen := run_length_le (fun _ _ _ => callsLeft_step) h
  refine ⟨hsub,by omega,fun hgo => ?_,hend⟩
  cases hp : t.phase with
  | reading => exact ⟨.readError,by rw [step_readError hp]; rfl⟩
  | writing buf => exact ⟨.writeError,by rw [step_writeError hp]; rfl⟩
  | returned code => exact absurd hp (hgo code)

theorem run_in_order_short :
    ∃ t, run step (start 2 3 [97,98]) [.read 1,.wrote 0,.read 1,.wrote 1,.read 0]=some t ∧
      (t.accepted++(pending t++t.rest)).Sublist [97,98] :=
  ⟨_,rfl,(@run_in_order 2 3 [97,98] [.read 1,.wrote 0,.read 1,.wrote 1,.read 0] _ rfl).1⟩

def Answer.isWrite : Answer → Bool
  | .read _ => false
  | .readError => false
  | .wrote _ => true
  | .writeError => true

/-- The same answer of `read`, or two answers of `write`. -/
def ReadAlike (a a' : Answer) : Prop := a=a' ∨ (a.isWrite=true ∧ a'.isWrite=true)

/-- After an answer of `write` the next call is `read`, whatever the answer is. -/
theorem step_write {c t : State} {a : Answer} (h : step c a=some t) (ha : a.isWrite=true) :
    t.rest=c.rest ∧ t.phase=.reading := by
  obtain ⟨n,rfl,-⟩ | ⟨rfl,-⟩ | ⟨rfl,-⟩ | ⟨n,buf,-,-,-,rfl⟩ | ⟨buf,-,-,rfl⟩ := step_cases h
  · cases ha
  · cases ha
  · cases ha
  · exact ⟨rfl,rfl⟩
  · exact ⟨rfl,rfl⟩

/-- States that differ at most in what standard output has accepted. -/
def SameButAccepted (c c' : State) : Prop := c'.rest=c.rest ∧ c'.phase=c.phase

theorem SameButAccepted.read_step {c c' t t' : State} {a : Answer} (h : SameButAccepted c c')
    (ha : a.isWrite=false) (hs : step c a=some t) (hs' : step c' a=some t') :
    SameButAccepted t t' := by
  obtain ⟨hrest,hphase⟩ := h
  obtain ⟨n,rfl,hp,h1,hb,hn,rfl⟩ | ⟨rfl,hp,hr,rfl⟩ | ⟨rfl,hp,rfl⟩ | ⟨n,buf,rfl,-⟩ | ⟨buf,rfl,-⟩ :=
    step_cases hs
  · have hn' : n ≤ c'.rest.length := by rwa [hrest]
    rw [step_read (hphase.trans hp) h1 hb hn'] at hs'
    cases hs'
    exact ⟨by rw [hrest],by rw [hrest]⟩
  · rw [step_eof (hphase.trans hp) (hrest.trans hr)] at hs'
    cases hs'
    exact ⟨hrest,rfl⟩
  · rw [step_readError (hphase.trans hp)] at hs'
    cases hs'
    exact ⟨hrest,rfl⟩
  · cases ha
  · cases ha

theorem SameButAccepted.step {c c' t t' : State} {a a' : Answer} (h : SameButAccepted c c')
    (ha : ReadAlike a a') (hs : step c a=some t) (hs' : step c' a'=some t') :
    SameButAccepted t t' := by
  have hwrites : a.isWrite=true → a'.isWrite=true → SameButAccepted t t' := by
    intro hw hw'
    obtain ⟨hrest,hphase⟩ := step_write hs hw
    obtain ⟨hrest',hphase'⟩ := step_write hs' hw'
    exact ⟨by rw [hrest',h.1,hrest],by rw [hphase',hphase]⟩
  rcases ha with rfl | ⟨hw,hw'⟩
  · cases hw : a.isWrite with
    | true => exact hwrites hw hw
    | false => exact h.read_step hw hs hs'
  · exact hwrites hw hw'

/-- What `cat` reads and what it returns depend on the answers of `read` only: two runs that differ
in the answers of `write` have the same bytes left to read and are at the same place in `main`. -/
theorem writes_unseen (argc fd : ℤ) {content : List UInt8} {answers answers' : List Answer}
    {t t' : State} (hsame : List.Forall₂ ReadAlike answers answers')
    (h : run step (start argc fd content) answers=some t)
    (h' : run step (start argc fd content) answers'=some t') :
    t'.rest=t.rest ∧ t'.phase=t.phase := by
  have hstart : SameButAccepted (start argc fd content) (start argc fd content) := ⟨rfl,rfl⟩
  change SameButAccepted t t'
  refine run_related ?_ hsame hstart h h'
  intro c c' a a' u u' hc ha hs hs'
  exact hc.step ha hs hs'

/-- A file of one byte that is accepted in the one run and refused in the other. -/
theorem writes_unseen_refused :
    ∃ t t', run step (start 2 3 [97]) [.read 1,.wrote 1,.read 0]=some t ∧
      run step (start 2 3 [97]) [.read 1,.writeError,.read 0]=some t' ∧ t'.phase=t.phase := by
  have hsame : List.Forall₂ ReadAlike [.read 1,.wrote 1,.read 0] [.read 1,.writeError,.read 0] :=
    .cons (.inl rfl) (.cons (.inr ⟨rfl,rfl⟩) (.cons (.inl rfl) .nil))
  exact ⟨_,_,rfl,rfl,(@writes_unseen 2 3 [97] _ _ _ _ hsame rfl rfl).2⟩

end AllRuns

end Cat
end NeOs
