import NeOs.CString
import NeOs.Ls.Listing

/-! `init.c`, the first process: it starts the mounts, opens the serial terminal and makes it
standard input, output and error, the controlling terminal, and 160 columns wide. The kernel is a
parameter: `W` is the type of its states, `F` that of the files that a descriptor can refer to. Of
its calls only what their documentation promises is used. -/
namespace NeOs
namespace Init
variable {W F : Type*}

/-- `struct winsize` -/
structure Winsize where
  wsRow : ℕ
  wsCol : ℕ
  deriving Repr, DecidableEq

/-- What a process can observe: the files of its descriptors and how many it may have, whether it
leads its process group and its session, whether it may administer the system, its controlling
terminal, and the sizes of the terminals. -/
structure View (F : Type*) where
  file : ℤ → Option F
  limit : ℤ
  groupLeader : Bool
  sessionLeader : Bool
  privileged : Bool
  controlling : Option F
  winsize : F → Winsize

/-- One descriptor changed. -/
def View.setFile (v : View F) (fd : ℤ) (f : Option F) : View F :=
  { v with file := Function.update v.file fd f }

section SetFile
variable (v : View F) (fd : ℤ) (f : Option F)

@[simp] theorem View.setFile_file (j : ℤ) : (v.setFile fd f).file j=if j=fd then f else v.file j :=
  Function.update_apply v.file fd f j

@[simp] theorem View.setFile_limit : (v.setFile fd f).limit=v.limit := rfl
@[simp] theorem View.setFile_sessionLeader : (v.setFile fd f).sessionLeader=v.sessionLeader := rfl
@[simp] theorem View.setFile_privileged : (v.setFile fd f).privileged=v.privileged := rfl
@[simp] theorem View.setFile_controlling : (v.setFile fd f).controlling=v.controlling := rfl
@[simp] theorem View.setFile_winsize : (v.setFile fd f).winsize=v.winsize := rfl

end SetFile

/-- The calls that `main` makes. It looks at the result of `open` only. -/
structure Kernel (W F : Type*) where
  view : W → View F
  isTty : F → Bool
  setsid : W → W
  system : List UInt8 → W → W
  /-- `open(path, O_RDWR)` -/
  openPath : List UInt8 → W → ℤ × W
  dup2 : ℤ → ℤ → W → W
  close : ℤ → W → W
  /-- `ioctl(fd, TIOCSCTTY, arg)` -/
  setControlling : ℤ → ℤ → W → W
  /-- `ioctl(fd, TIOCSWINSZ, &ws)` -/
  setWinsize : ℤ → Winsize → W → W

section Program
variable (k : Kernel W F)

/-- The beginning of `main`: a session of its own, and the mounts. -/
def mounts (w : W) : W :=
  let w := k.setsid w
  let w := k.system (text "mount -t proc proc /proc") w
  let w := k.system (text "mount -t sysfs sysfs /sys") w
  k.system (text "mount -t devtmpfs devtmpfs /dev") w

/-- The part of `main` that redirects the standard descriptors. -/
def redirect (fd : ℤ) (w : W) : W :=
  let w := k.dup2 fd 0 w
  let w := k.dup2 fd 1 w
  let w := k.dup2 fd 2 w
  if fd > 2 then k.close fd w else w

/-- `main`, up to the `execl` of the shell. -/
def main (w : W) : W :=
  let w := mounts k w
  let (fd,w) := k.openPath (text "/dev/ttyS0") w
  let w := redirect k fd w
  let w := k.setControlling 0 1 w
  k.setWinsize 0 ⟨24*2,80*2⟩ w

end Program

/-- What the documentation of the calls promises. -/
structure Documented [DecidableEq F] (k : Kernel W F) : Prop where
  /-- Whoever leads no group gets a new session, without a controlling terminal. -/
  setsid_ok : ∀ w, (k.view w).groupLeader=false → k.view (k.setsid w)=
    { k.view w with groupLeader := true, sessionLeader := true, controlling := none }
  /-- A command runs in a process of its own; it may resize a terminal. -/
  system_ok : ∀ command w, ∃ sizes, k.view (k.system command w)={ k.view w with winsize := sizes }
  /-- The file gets a free descriptor. The leader of a session without a controlling terminal may
  acquire one by opening it. -/
  open_ok : ∀ path w, 0 ≤ (k.openPath path w).1 → ∃ f c,
    (k.view w).file (k.openPath path w).1=none ∧
    (c=(k.view w).controlling ∨ (k.view w).sessionLeader=true ∧ (k.view w).controlling=none ∧
      k.isTty f=true ∧ c=some f) ∧
    k.view (k.openPath path w).2=
      { (k.view w).setFile (k.openPath path w).1 (some f) with controlling := c }
  open_failed : ∀ path w, (k.openPath path w).1 < 0 → k.view (k.openPath path w).2=k.view w
  /-- An open descriptor replaces another one in the range. -/
  dup2_ok : ∀ old new w f, 0 ≤ old → (k.view w).file old=some f → 0 ≤ new →
    new < (k.view w).limit →
    k.view (k.dup2 old new w)=(k.view w).setFile new (some f)
  dup2_failed : ∀ old new w, old < 0 → k.view (k.dup2 old new w)=k.view w
  close_ok : ∀ fd w f, (k.view w).file fd=some f →
    k.view (k.close fd w)=(k.view w).setFile fd none
  /-- The leader of a session makes a terminal its controlling one unless it has another. With
  argument 1 a privileged process takes it from another session. -/
  setControlling_ok : ∀ fd w f, (k.view w).file fd=some f → k.isTty f=true →
    (k.view w).sessionLeader=true → (k.view w).privileged=true →
    ((k.view w).controlling=none ∨ (k.view w).controlling=some f) →
    k.view (k.setControlling fd 1 w)={ k.view w with controlling := some f }
  setControlling_file : ∀ fd arg w, (k.view (k.setControlling fd arg w)).file=(k.view w).file
  setWinsize_ok : ∀ fd ws w f, (k.view w).file fd=some f → k.isTty f=true →
    k.view (k.setWinsize fd ws w)=
      { k.view w with winsize := Function.update (k.view w).winsize f ws }
  setWinsize_file : ∀ fd ws w, (k.view (k.setWinsize fd ws w)).file=(k.view w).file

section Run
variable [DecidableEq F] {k : Kernel W F}

/-- `init` becomes the leader of a session without a terminal. -/
theorem Documented.mounts_view (hk : Documented k) {w : W} (hlead : (k.view w).groupLeader=false) :
    ∃ sizes, k.view (mounts k w)={ k.view w with
      groupLeader := true, sessionLeader := true, controlling := none, winsize := sizes } := by
  obtain ⟨s₁,h₁⟩ := hk.system_ok (text "mount -t proc proc /proc") (k.setsid w)
  obtain ⟨s₂,h₂⟩ := hk.system_ok (text "mount -t sysfs sysfs /sys")
    (k.system (text "mount -t proc proc /proc") (k.setsid w))
  obtain ⟨s₃,h₃⟩ := hk.system_ok (text "mount -t devtmpfs devtmpfs /dev")
    (k.system (text "mount -t sysfs sysfs /sys") (k.system (text "mount -t proc proc /proc") (k.setsid w)))
  exact ⟨s₃,by rw [mounts,h₃,h₂,h₁,hk.setsid_ok w hlead]⟩

/-- The three duplications of an open descriptor. -/
theorem Documented.dup2_standard (hk : Documented k) {w : W} {fd : ℤ} {f : F} (hfd : 0 ≤ fd)
    (hf : (k.view w).file fd=some f) (hl : 3 ≤ (k.view w).limit) :
    k.view (k.dup2 fd 2 (k.dup2 fd 1 (k.dup2 fd 0 w)))=
      (((k.view w).setFile 0 (some f)).setFile 1 (some f)).setFile 2 (some f) := by
  have h0 := hk.dup2_ok fd 0 w f hfd hf le_rfl (by omega)
  have h1 := hk.dup2_ok fd 1 (k.dup2 fd 0 w) f hfd (by simp [h0,hf]) (by omega)
    (by rw [h0,View.setFile_limit]; omega)
  have h2 := hk.dup2_ok fd 2 (k.dup2 fd 1 (k.dup2 fd 0 w)) f hfd (by simp [h1,h0,hf]) (by omega)
    (by rw [h1,h0,View.setFile_limit,View.setFile_limit]; omega)
  rw [h2,h1,h0]

/-- The standard descriptors refer to the file of `fd`, and `fd` itself is closed unless it is one
of them. Nothing else changes. -/
theorem Documented.redirect_view (hk : Documented k) {w : W} {fd : ℤ} {f : F} (h0 : 0 ≤ fd)
    (hf : (k.view w).file fd=some f) (hl : 3 ≤ (k.view w).limit) :
    (∀ j, (k.view (redirect k fd w)).file j=
      if 0 ≤ j ∧ j < 3 then some f else if j=fd then none else (k.view w).file j) ∧
    (k.view (redirect k fd w)).sessionLeader=(k.view w).sessionLeader ∧
    (k.view (redirect k fd w)).privileged=(k.view w).privileged ∧
    (k.view (redirect k fd w)).controlling=(k.view w).controlling ∧
    (k.view (redirect k fd w)).winsize=(k.view w).winsize := by
  have hstd := hk.dup2_standard h0 hf hl
  rw [redirect]
  by_cases hgt : fd > 2
  · have hclose := hk.close_ok fd (k.dup2 fd 2 (k.dup2 fd 1 (k.dup2 fd 0 w))) f (by simp [hstd,hf])
    rw [if_pos hgt,hclose,hstd]
    refine ⟨fun j => ?_,rfl,rfl,rfl,rfl⟩
    simp only [View.setFile_file]
    split_ifs <;> first | rfl | omega
  · rw [if_neg hgt,hstd]
    refine ⟨fun j => ?_,rfl,rfl,rfl,rfl⟩
    simp only [View.setFile_file]
    split_ifs <;> first | rfl | omega

theorem Documented.redirect_failed (hk : Documented k) (w : W) {fd : ℤ} (h0 : fd < 0) :
    k.view (redirect k fd w)=k.view w := by
  rw [redirect,if_neg (by omega),hk.dup2_failed fd 2 _ h0,hk.dup2_failed fd 1 _ h0,
    hk.dup2_failed fd 0 _ h0]

/-- `ls` divides by zero on a terminal of 160 columns exactly when a name leaves no room for two
blanks. -/
theorem divByZero_iff {sys : Ls.System} (hw : sys.wsCol=160) {path : List UInt8} (flags : Ls.Flags)
    {entries : List Ls.Dirent} (hopen : sys.opendir path=some entries) :
    (Ls.beforeLs sys path flags).result=.error .divByZero ↔
      ∃ e ∈ Ls.visibleEntries flags entries, 158 < e.dName.length := by
  have hlong : (∃ e ∈ Ls.visibleEntries flags entries, 158 < e.dName.length) ↔
      ¬Ls.longest (Ls.visibleEntries flags entries) ≤ 158 := by
    rw [Ls.longest_le_iff]
    push Not
    rfl
  rw [hlong]
  by_cases hvis : Ls.visibleEntries flags entries=[]
  · rw [Ls.beforeLs_empty hopen hvis,hvis]
    exact iff_of_false (fun h => by cases h) (fun h => h (Nat.zero_le _))
  · by_cases hfit : Ls.longest (Ls.visibleEntries flags entries) ≤ 158
    · rw [Ls.beforeLs_listed hopen hvis (by omega)]
      exact iff_of_false (fun h => by cases h) (not_not.mpr hfit)
    · rw [Ls.beforeLs_narrow hopen hvis (by omega)]
      exact iff_of_true rfl hfit

/-- `init`, started with privileges and as no leader of a group. If the terminal can be opened, it
becomes the three standard descriptors and the controlling terminal, 160 columns wide; all other
descriptors are as they were, the one it was opened at included, and so are the sizes of all other
terminals since the mounts. If it cannot be opened, all descriptors are as they were. On a terminal
of that width `ls` faults exactly when it is to show a name of more than 158 bytes. -/
theorem main_sets_terminal (hk : Documented k)
    (htty : ∀ w f, 0 ≤ (k.openPath (text "/dev/ttyS0") w).1 →
      (k.view (k.openPath (text "/dev/ttyS0") w).2).file
        (k.openPath (text "/dev/ttyS0") w).1=some f → k.isTty f=true)
    (w : W) (hlead : (k.view w).groupLeader=false) (hpriv : (k.view w).privileged=true)
    (hl : 3 ≤ (k.view w).limit) :
    (0 ≤ (k.openPath (text "/dev/ttyS0") (mounts k w)).1 → ∃ f, k.isTty f=true ∧
      (∀ j, (k.view (main k w)).file j=if 0 ≤ j ∧ j < 3 then some f else (k.view w).file j) ∧
      (k.view (main k w)).controlling=some f ∧ (k.view (main k w)).winsize f=⟨48,160⟩ ∧
      (∀ g, g≠f → (k.view (main k w)).winsize g=(k.view (mounts k w)).winsize g) ∧
      ∀ sys path flags entries, sys.wsCol=((k.view (main k w)).winsize f).wsCol →
        sys.opendir path=some entries →
        ((Ls.beforeLs sys path flags).result=.error .divByZero ↔
          ∃ e ∈ Ls.visibleEntries flags entries, 158 < e.dName.length)) ∧
    ((k.openPath (text "/dev/ttyS0") (mounts k w)).1 < 0 →
      (k.view (main k w)).file=(k.view w).file) := by
  rcases hopen : k.openPath (text "/dev/ttyS0") (mounts k w) with ⟨fd,w₁⟩
  obtain ⟨sizes,hm⟩ := hk.mounts_view hlead
  have hmain : main k w=k.setWinsize 0 ⟨48,160⟩ (k.setControlling 0 1 (redirect k fd w₁)) := by
    rw [main,hopen]
  refine ⟨fun h0 => ?_,fun h0 => ?_⟩
  · obtain ⟨f,c,hfree,hc,hv⟩ := hk.open_ok (text "/dev/ttyS0") (mounts k w) (by rwa [hopen])
    rw [hopen] at hfree hv
    have hfile : (k.view w₁).file fd=some f := by simp [hv]
    have hf : k.isTty f=true := htty (mounts k w) f (by rwa [hopen]) (by rwa [hopen])
    obtain ⟨hget,hlead₁,hpriv₁,hctl,hsizes⟩ := hk.redirect_view h0 hfile (by rw [hv,hm]; exact hl)
    have hs := hk.setControlling_ok 0 (redirect k fd w₁) f (hget 0) hf
      (by rw [hlead₁,hv,hm]; rfl) (by rw [hpriv₁,hv,hm]; exact hpriv) (by
        rw [hctl,hv]
        rcases hc with hc | ⟨-,-,-,hc⟩
        · exact Or.inl (by rw [hc,hm])
        · exact Or.inr hc)
    have hz := hk.setWinsize_ok 0 ⟨48,160⟩ (k.setControlling 0 1 (redirect k fd w₁)) f
      (by rw [hs]; exact hget 0) hf
    have hsize : (k.view (main k w)).winsize f=⟨48,160⟩ := by
      rw [hmain,hz]
      exact Function.update_self f _ _
    refine ⟨f,hf,fun j => ?_,by rw [hmain,hz,hs],hsize,fun g hg => ?_,?_⟩
    · rw [hmain,hz,hs]
      simp only [hget]
      split_ifs with hj hfd
      · rfl
      · rw [hfd,← hfree,hm]
      · simp only [hv,View.setFile_file,if_neg hfd,hm]
    · rw [hmain,hz,hs]
      simp only [Function.update_of_ne hg,hsizes,hv,View.setFile_winsize]
    · intro sys path flags entries hwidth hdir
      rw [hsize] at hwidth
      exact divByZero_iff hwidth flags hdir
  · have hfailed := hk.open_failed (text "/dev/ttyS0") (mounts k w) (by rwa [hopen])
    rw [hopen] at hfailed
    rw [hmain,hk.setWinsize_file,hk.setControlling_file,hk.redirect_failed w₁ h0,hfailed,hm]

end Run

section Machine

/-- The lowest descriptor that is free. -/
def lowest (v : View ℕ) : Option ℤ :=
  ((List.range v.limit.toNat).map Int.ofNat).find? fun i => (v.file i).isNone

theorem lowest_spec {v : View ℕ} {i : ℤ} (h : lowest v=some i) : 0 ≤ i ∧ v.file i=none := by
  obtain ⟨n,-,rfl⟩ := List.mem_map.mp (List.mem_of_find?_eq_some h)
  exact ⟨Int.natCast_nonneg n,by simpa using List.find?_some h⟩

/-- A machine with one terminal, number 4. A process sees its whole state. -/
def machine : Kernel (View ℕ) ℕ where
  view v := v
  isTty f := f=4
  setsid v := if v.groupLeader then v
    else { v with groupLeader := true, sessionLeader := true, controlling := none }
  system _ v := v
  openPath path v :=
    match lowest v with
    | some i =>
      if path=text "/dev/ttyS0" then (i,{ v.setFile i (some 4) with
        controlling :=
          if v.sessionLeader=true ∧ v.controlling=none then some 4 else v.controlling })
      else (-1,v)
    | none => (-1,v)
  dup2 old new v :=
    match v.file old with
    | some f => if 0 ≤ old ∧ 0 ≤ new ∧ new < v.limit then v.setFile new (some f) else v
    | none => v
  close fd v := v.setFile fd none
  setControlling fd _ v :=
    match v.file fd with
    | some f =>
      if f=4 ∧ v.sessionLeader=true ∧ (v.controlling=none ∨ v.controlling=some f) then
        { v with controlling := some f } else v
    | none => v
  setWinsize fd ws v :=
    match v.file fd with
    | some f => if f=4 then { v with winsize := Function.update v.winsize f ws } else v
    | none => v

theorem documented_machine : Documented machine where
  setsid_ok v hlead := if_neg (by simpa [machine] using hlead)
  system_ok _ v := ⟨v.winsize,rfl⟩
  open_ok path v h0 := by
    simp only [machine] at h0 ⊢
    cases hfree : lowest v with
    | none => simp [hfree] at h0
    | some i =>
      simp only [hfree] at h0 ⊢
      split_ifs at h0 ⊢ with hpath hc
      · exact ⟨4,_,(lowest_spec hfree).2,Or.inr ⟨hc.1,hc.2,rfl,rfl⟩,rfl⟩
      · exact ⟨4,_,(lowest_spec hfree).2,Or.inl rfl,rfl⟩
      · omega
  open_failed path v h0 := by
    simp only [machine] at h0 ⊢
    cases hfree : lowest v with
    | none => rfl
    | some i =>
      have hi := (lowest_spec hfree).1
      simp only [hfree] at h0 ⊢
      by_cases hpath : path=text "/dev/ttyS0"
      · rw [if_pos hpath] at h0
        exact absurd hi (not_le.mpr h0)
      · rw [if_neg hpath]
  dup2_ok old new v f hold hf h0 hl := by
    simp only [machine] at hf hl ⊢
    rw [hf]
    exact if_pos ⟨hold,h0,hl⟩
  dup2_failed old new v hold := by
    simp only [machine]
    cases v.file old with
    | none => rfl
    | some f => exact if_neg (by omega)
  close_ok fd v f _ := rfl
  setControlling_ok fd v f hf htty hlead _ hc := by
    have hf4 : f=4 := of_decide_eq_true htty
    simp only [machine] at hf hlead hc ⊢
    rw [hf]
    exact if_pos ⟨hf4,hlead,hc⟩
  setControlling_file fd arg v := by
    simp only [machine]
    cases v.file fd with
    | none => rfl
    | some f =>
      simp only
      split_ifs <;> rfl
  setWinsize_ok fd ws v f hf htty := by
    have hf4 : f=4 := of_decide_eq_true htty
    simp only [machine] at hf ⊢
    rw [hf]
    exact if_pos hf4
  setWinsize_file fd ws v := by
    simp only [machine]
    cases v.file fd with
    | none => rfl
    | some f =>
      simp only
      split_ifs <;> rfl

theorem opened_isTty (v : View ℕ) (f : ℕ) (h0 : 0 ≤ (machine.openPath (text "/dev/ttyS0") v).1)
    (hf : (machine.view (machine.openPath (text "/dev/ttyS0") v).2).file
      (machine.openPath (text "/dev/ttyS0") v).1=some f) : machine.isTty f=true := by
  simp only [machine] at h0 hf ⊢
  cases hfree : lowest v with
  | none => simp [hfree] at h0
  | some i =>
    simp only [hfree,if_true,View.setFile_file,Option.some.injEq] at hf
    exact decide_eq_true hf.symm

/-- `init` as the kernel starts it: the standard descriptors on a console, number 1. -/
def started : View ℕ where
  file fd := if 0 ≤ fd ∧ fd < 3 then some 1 else none
  limit := 16
  groupLeader := false
  sessionLeader := false
  privileged := true
  controlling := none
  winsize _ := ⟨0,0⟩

/-- The terminal is opened at descriptor 3, which is closed again. -/
theorem main_sets_terminal_started :
    (main machine started).file 1=some 4 ∧ (main machine started).file 3=none ∧
      (main machine started).controlling=some 4 ∧ (main machine started).winsize 4=⟨48,160⟩ := by
  obtain ⟨f,hf,hfile,hctl,hsize,-⟩ := (main_sets_terminal documented_machine opened_isTty started
    rfl rfl (by decide)).1 (by decide)
  obtain rfl : f=4 := of_decide_eq_true hf
  exact ⟨hfile 1,hfile 3,hctl,hsize⟩

end Machine

end Init
end NeOs
