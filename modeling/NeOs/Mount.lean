import NeOs.CString

/-! `bin/mount.c`, with `count_initial_flags` of `lib/utils.c`. The arguments are the strings of
`argv`; `argv[argc]` is the null pointer, for which `none` stands. -/
namespace NeOs

/-- The loop of `count_initial_flags` over the arguments that are left. -/
def countFlagsFrom (count : ℕ) : List (List UInt8) → ℕ
  | [] => count
  | a::args => if charAt a 0≠dash then count else countFlagsFrom (count+1) args

def countInitialFlags (argv : List (List UInt8)) : ℕ :=
  if argv.length ≤ 1 then 0 else countFlagsFrom 0 argv.tail

theorem le_countFlagsFrom (count : ℕ) (args : List (List UInt8)) :
    count ≤ countFlagsFrom count args := by
  induction args generalizing count with
  | nil => exact le_rfl
  | cons a args ih =>
    rw [countFlagsFrom]
    split_ifs
    · exact le_rfl
    · exact (Nat.le_succ count).trans (ih (count+1))

theorem countInitialFlags_cons (prog flag : List UInt8) (args : List (List UInt8)) :
    countInitialFlags (prog::flag::args)=if charAt flag 0≠dash then 0 else countFlagsFrom 1 args :=
  rfl

namespace Mount

/-- The arguments of the system call. -/
structure MountArgs where
  source : Option (List UInt8)
  target : Option (List UInt8)
  filesystemtype : Option (List UInt8)
  mountflags : ℕ
  data : Option (List UInt8)
  deriving Repr, DecidableEq

/-- The exit code of `main` and the system calls it has made. The kernel is a parameter. -/
def main (mount : MountArgs → ℤ) (argv : List (List UInt8)) : ℤ × List MountArgs :=
  let argc := argv.length
  let count := countInitialFlags argv
  if count=0 then (1,[])
  else if count=1 then
    if charAt (argv.getD 1 []) 1=116 ∧ charAt (argv.getD 1 []) 2=0 then
      if argc < 4 then (1,[])
      else
        let args : MountArgs := { source := argv[3]?, target := argv[4]?, filesystemtype := argv[2]?,
                                  mountflags := 0, data := none }
        (mount args,[args])
    else (1,[])
  else (1,[])

/-- The command line `mount -t FSTYPE SOURCE TARGET`, with anything behind it. -/
def CompleteLine (argv : List (List UInt8)) (source target fstype : List UInt8) : Prop :=
  ∃ prog rest, argv=prog::text "-t"::fstype::source::target::rest ∧ charAt fstype 0≠dash

/-- The system call is made with the operands of a complete command line and on no other one. -/
def MountsCompleteLines (mount : MountArgs → ℤ) (argv : List (List UInt8)) : Prop :=
  (∀ source target fstype, CompleteLine argv source target fstype →
    main mount argv=(mount ⟨some source,some target,some fstype,0,none⟩,
      [⟨some source,some target,some fstype,0,none⟩])) ∧
  ((¬∃ source target fstype, CompleteLine argv source target fstype) → main mount argv=(1,[]))

/-- The command line `mount -t FSTYPE SOURCE`, one operand short. -/
def TargetMissing (argv : List (List UInt8)) : Prop :=
  ∃ prog fstype source, argv=[prog,text "-t",fstype,source] ∧ charAt fstype 0≠dash

/-- The three characters that `main` looks at make up the string `-t`. -/
theorem eq_dash_t {a : List UInt8} (h : 0 ∉ a) (h0 : charAt a 0=dash) (h1 : charAt a 1=116)
    (h2 : charAt a 2=0) : a=text "-t" := by
  match a,h,h0,h1,h2 with
  | [],_,h0,_,_ => exact absurd h0 (by decide)
  | [_],_,_,h1,_ => exact absurd h1 (show (0 : UInt8)≠116 by decide)
  | [x,y],_,h0,h1,_ =>
    obtain rfl : x=dash := h0
    obtain rfl : y=116 := h1
    rfl
  | _::_::z::_,h,_,_,h2 =>
    obtain rfl : z=0 := h2
    exact absurd (by simp) h

/-- With `-t` and two operands the system call is made, whether or not there is a third one. -/
theorem main_line (mount : MountArgs → ℤ) (prog fstype source : List UInt8)
    (rest : List (List UInt8)) (h : charAt fstype 0≠dash) :
    main mount (prog::text "-t"::fstype::source::rest)=
      (mount ⟨some source,rest.head?,some fstype,0,none⟩,
        [⟨some source,rest.head?,some fstype,0,none⟩]) := by
  have hcount : countInitialFlags (prog::text "-t"::fstype::source::rest)=1 := by
    rw [countInitialFlags_cons,if_neg (by decide),countFlagsFrom,if_pos h]
  have htest : charAt ((prog::text "-t"::fstype::source::rest).getD 1 []) 1=116 ∧
      charAt ((prog::text "-t"::fstype::source::rest).getD 1 []) 2=0 := by
    change charAt (text "-t") 1=116 ∧ charAt (text "-t") 2=0
    decide
  have hargc : ¬(prog::text "-t"::fstype::source::rest).length < 4 := by
    simp only [List.length_cons]
    omega
  have htarget : (prog::text "-t"::fstype::source::rest)[4]?=rest.head? := by
    cases rest <;> rfl
  simp only [main,hcount,htarget,if_neg hargc,if_pos htest,one_ne_zero,if_false,if_true]
  rfl

/-- On every other command line it is not made. -/
theorem main_other (mount : MountArgs → ℤ) {argv : List (List UInt8)} (hnul : ∀ a ∈ argv, 0 ∉ a)
    (h : ¬∃ prog fstype source rest,
      argv=prog::text "-t"::fstype::source::rest ∧ charAt fstype 0≠dash) :
    main mount argv=(1,[]) := by
  match argv,hnul,h with
  | [],_,_ => rfl
  | [_],_,_ => rfl
  | prog::flag::args,hnul,h =>
    by_cases hflag : charAt flag 0≠dash
    · simp [main,countInitialFlags_cons,if_pos hflag]
    · have hcount : countInitialFlags (prog::flag::args)=countFlagsFrom 1 args := by
        rw [countInitialFlags_cons,if_neg hflag]
      match args,hcount,h,hnul with
      | [],hcount,_,_ => simp [main,hcount,countFlagsFrom]
      | [a],hcount,_,_ => simp [main]
      | a::b::args,hcount,h,hnul =>
        by_cases ha : charAt a 0≠dash
        · rw [countFlagsFrom,if_pos ha] at hcount
          have htest : ¬(charAt flag 1=116 ∧ charAt flag 2=0) := by
            rintro ⟨h1,h2⟩
            have hflag' := eq_dash_t (hnul flag (by simp)) (not_not.mp hflag) h1 h2
            exact h ⟨prog,a,b,args,by rw [hflag'],ha⟩
          simp only [main,hcount]
          exact if_neg htest
        · rw [countFlagsFrom,if_neg ha] at hcount
          have hle := le_countFlagsFrom (1+1) (b::args)
          have h0 : ¬countInitialFlags (prog::flag::a::b::args)=0 := by omega
          have h1 : ¬countInitialFlags (prog::flag::a::b::args)=1 := by omega
          simp only [main,if_neg h0,if_neg h1]

/-- The system call is made as it should be on every command line but those that lack the target
only: the length of `argv` is compared with 4 where `argv[4]` is used. -/
theorem mountsCompleteLines_iff (mount : MountArgs → ℤ) (argv : List (List UInt8))
    (hnul : ∀ a ∈ argv, 0 ∉ a) : MountsCompleteLines mount argv ↔ ¬TargetMissing argv := by
  constructor
  · rintro ⟨-,hother⟩ ⟨prog,fstype,source,rfl,hf⟩
    have hno : ¬∃ source' target' fstype',
        CompleteLine [prog,text "-t",fstype,source] source' target' fstype' := by
      rintro ⟨_,_,_,_,_,hargv,-⟩
      simp at hargv
    have hmade := main_line mount prog fstype source [] hf
    rw [hother hno] at hmade
    cases congrArg Prod.snd hmade
  · intro hmissing
    refine ⟨?_,?_⟩
    · rintro source target fstype ⟨prog,rest,rfl,hf⟩
      exact main_line mount prog fstype source (target::rest) hf
    · intro hno
      apply main_other mount hnul
      rintro ⟨prog,fstype,source,rest,rfl,hf⟩
      cases rest with
      | nil => exact hmissing ⟨prog,fstype,source,rfl,hf⟩
      | cons target rest => exact hno ⟨source,target,fstype,prog,rest,rfl,hf⟩

/-- A complete command line. -/
theorem mountsCompleteLines_ext4 :
    MountsCompleteLines (fun _ => 0)
      [text "mount",text "-t",text "ext4",text "/dev/sda",text "/mnt"] := by
  refine (mountsCompleteLines_iff (fun _ => 0) _ (by decide)).mpr ?_
  rintro ⟨_,_,_,h,-⟩
  simp at h

/-- Without the target the system call is made with a null pointer in its place. -/
theorem mount_without_target_fails :
    main (fun _ => 0) [text "mount",text "-t",text "ext4",text "/dev/sda"]=
        (0,[⟨some (text "/dev/sda"),none,some (text "ext4"),0,none⟩]) ∧
      ¬MountsCompleteLines (fun _ => 0) [text "mount",text "-t",text "ext4",text "/dev/sda"] := by
  refine ⟨by decide,?_⟩
  rintro ⟨-,hother⟩
  have hno := hother (by
    rintro ⟨_,_,_,_,_,h,-⟩
    simp at h)
  exact absurd hno (by decide)

end Mount
end NeOs
