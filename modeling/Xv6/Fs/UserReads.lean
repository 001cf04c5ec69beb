import Xv6.Fs.ByteArrays
import Xv6.Fs.FileOps
import Xv6.Vm.UserMemory

set_option autoImplicit false

/-! # Reading a file into user memory

`fileread` of `kernel/file.c` on an `FD_INODE` file, with `readi` of `kernel/fs.c` copying into the
memory of the process: the file system and the memory are both part of the state. The count is a C `int`
that `readi` takes as a `uint`, so what it does for a negative count depends on the offset. -/

namespace Xv6.Fs

open Wp Function
open Bytes (Byte)
open Vm (Word plus userByte)

/-- The file system and the memory. -/
structure Machine where
  fs : State
  mem : Vm.Mem

/-- Kernel code that works on both. -/
abbrev KernelM : Type → Type := StateT Machine (Except (Stop ⊕ String))

def onFs {α : Type} (x : FsM α) : KernelM α := zoom Machine.fs (fun s fs => { s with fs := fs }) .inl x

def onMem {α : Type} (x : Vm.M α) : KernelM α :=
  zoom Machine.mem (fun s mem => { s with mem := mem }) .inr x

variable (sb : Superblock) (pagetable : Word)

/-- The loop of `readi` with `user_dst`. Every round copies at least one byte. -/
def readiUserLoop (ip : InodeId) (n : Nat) : Nat → Nat → Nat → Word → KernelM Int
  | 0, _, _, _ => throw (.inl .outside)
  | rounds + 1, tot, off, dst =>
    if tot < n then do
      let addr ← onFs (bmap sb ip (off / BSIZE))
      if addr = 0 then pure tot
      else do
        let blk ← onFs (bread sb addr)
        let m := min (n - tot) (BSIZE - off % BSIZE)
        let ok ← onMem (Vm.copyout pagetable dst (fun k => (blk.get (off % BSIZE + k)).toBitVec)
          (BitVec.ofNat 64 m))
        if ok then readiUserLoop ip n rounds (tot + m) (off + m) (dst + BitVec.ofNat 64 m)
        else pure (-1)
    else pure tot

/-- `readi(ip, 1, dst, off, n)`. -/
def readiUser (ip : InodeId) (dst : Word) (off n : Nat) : KernelM Int := do
  let x ← onFs (getInode ip)
  if off > x.size ∨ (off + n) % 2 ^ 32 < off then pure 0
  else do
    let n := if (off + n) % 2 ^ 32 > x.size then x.size - off else n
    readiUserLoop sb pagetable ip n (n + 1) 0 off dst

/-- `fileread(f, addr, n)` of a file whose type is `FD_INODE`. -/
def filereadInode (f : FileId) (addr : Word) (n : Int) : KernelM Int := do
  let x ← onFs (getFile f)
  if x.readable = false then pure (-1)
  else do
    onFs (ilock sb x.ip)
    let r ← readiUser sb pagetable x.ip addr x.off (toUint n)
    if r > 0 then onFs (setFile f fun x => { x with off := (x.off + r.toNat) % 2 ^ 32 }) else pure ()
    onFs (iunlock x.ip)
    pure r

variable {sb pagetable} {s s₀ : Machine} {ip : InodeId} {f : FileId} {addr : Word} {off n : Nat}
  {fs : State}

/-- Byte `k` of what is read from offset `off` on. -/
def fileByte (fs : State) (ip : InodeId) (off k : Nat) : Byte :=
  (byteAt fs.data (fs.itable ip).toDinode (off + k)).toBitVec

/-- What `readi` delivers of `count` bytes: the first `m` of them are in user memory, and these are all
    of them unless a page is missing. -/
structure Delivered (pagetable : Word) (mem mem' : Vm.Mem) (addr : Word) (src : Nat → Byte)
    (count : Nat) (r : Int) (m : Nat) : Prop where
  le : m ≤ count
  copied : Vm.Copied mem mem' pagetable addr src m
  writable : ∀ k < m, Vm.Writable mem.pte pagetable (plus addr k)
  result : (r = count ∧ m = count) ∨
    (r = -1 ∧ m < count ∧ ¬ Vm.Writable mem.pte pagetable (plus addr m))

theorem Copied.congr {mem mem' : Vm.Mem} {src src' : Nat → Byte} {m : Nat}
    (h : Vm.Copied mem mem' pagetable addr src m) (hsrc : ∀ k < m, src k = src' k) :
    Vm.Copied mem mem' pagetable addr src' m :=
  ⟨h.same, fun k hk => hsrc k hk ▸ h.bytes k hk, h.other, h.pages, h.freelist, h.fails⟩

theorem forall_lt_add {p : Nat → Prop} {a b : Nat} (ha : ∀ k < a, p k) (hb : ∀ k < b, p (a + k)) :
    ∀ k < a + b, p k := by
  intro k hk
  by_cases h : k < a
  · exact ha k h
  · have := hb (k - a) (by omega)
    rwa [Nat.add_sub_cancel' (Nat.le_of_not_lt h)] at this

/-- One round: what `copyout` does goes on from where the rounds before have stopped. -/
theorem wp_copyRound {tot m : Nat} {src : Nat → Byte} {blk : Nat → Byte} {Q : Bool → Vm.Mem → Prop}
    {E : String → Prop} {mem mem₁ : Vm.Mem} (ht : Vm.UserTable mem.pte pagetable)
    (hdone : Vm.Copied mem mem₁ pagetable addr src tot) (hlt : tot + m < 2 ^ 64)
    (hblk : ∀ k < m, blk k = src (tot + k))
    (hok : ∀ mem₂, (∀ k < m, Vm.Writable mem.pte pagetable (plus addr (tot + k))) →
      Vm.Copied mem mem₂ pagetable addr src (tot + m) → Q true mem₂)
    (hbad : ∀ mem₂ j, j < m → (∀ k < j, Vm.Writable mem.pte pagetable (plus addr (tot + k))) →
      ¬ Vm.Writable mem.pte pagetable (plus addr (tot + j)) →
      Vm.Copied mem mem₂ pagetable addr src (tot + j) → Q false mem₂) :
    wp (Vm.copyout pagetable (plus addr tot) blk (BitVec.ofNat 64 m)) Q E mem₁ := by
  have hm : (BitVec.ofNat 64 m).toNat = m := by
    rw [BitVec.toNat_ofNat, Nat.mod_eq_of_lt (by omega)]
  have hcopy : wp (Vm.copyout pagetable (plus addr tot) blk (BitVec.ofNat 64 m)) _ E mem₁ :=
    (ht.congr hdone.same).wp_copyoutLoop (Nat.lt_succ_self _)
  refine hcopy.mono ?_ fun _ he => he
  rintro ok mem₂ ⟨j, hj, hout⟩
  rw [hm] at hj hout
  have hall : Vm.Copied mem mem₂ pagetable addr src (tot + j) :=
    hdone.append (Copied.congr hout.copied fun k hk => hblk k (by omega)) (by omega)
  have hwrite : ∀ k < j, Vm.Writable mem.pte pagetable (plus addr (tot + k)) := by
    intro k hk
    rw [← Vm.plus_plus]
    exact hdone.same.writable.1 (hout.writable k hk)
  cases ok with
  | true =>
    obtain rfl := hout.done rfl
    exact hok mem₂ hwrite hall
  | false =>
    obtain ⟨hjm, hno, -⟩ := hout.stopped rfl
    refine hbad mem₂ j hjm hwrite (fun hw => hno ?_) hall
    rw [Vm.plus_plus]
    exact hdone.same.writable.2 hw

/-- Below its size a file has all its blocks. -/
theorem Ready.fetch (h : Ready sb fs ip) (hoff : off < (fs.itable ip).size) :
    ∃ b, b ≠ 0 ∧ bmapWith sb (Writer.kernel sb) ip (off / BSIZE) fs = .ok (b, fs) ∧
      bread sb b fs = .ok (fs.data b, fs) ∧
      b = blockAt fs.data (fs.itable ip).toDinode (placeOf (off / BSIZE)) := by
  have hne : blockAt fs.data (fs.itable ip).toDinode (placeOf (off / BSIZE)) ≠ 0 := by
    have := h.disk.filled _ h.alloc (off / BSIZE)
    rw [flush_self] at this
    exact this (Nat.lt_of_le_of_lt (div_mul_BSIZE_le _) hoff)
  exact ⟨_, hne, bmapWith_found h hne, (wp_bread (h.block_range rfl hne) ⟨rfl, rfl⟩).eq_ok, rfl⟩

/-- The loop delivers what it is asked for, and takes the same way as `readiLoop`. -/
theorem wp_readiUserLoop {w : Nat → Bool} (h : Ready sb s.fs ip)
    (ht : Vm.UserTable s₀.mem.pte pagetable) (hsize : off + n ≤ (s.fs.itable ip).size)
    (hw : ∀ k < n, w k = true ↔ Vm.Writable s₀.mem.pte pagetable (plus addr k)) (rounds tot : Nat)
    (out : List UInt8) (hrounds : n < rounds + tot) (hle : tot ≤ n)
    (hdone : Vm.Copied s₀.mem s.mem pagetable addr (fileByte s.fs ip off) tot)
    (hwrite : ∀ k < tot, Vm.Writable s₀.mem.pte pagetable (plus addr k)) :
    wp (readiUserLoop sb pagetable ip n rounds tot (off + tot) (plus addr tot)) (fun r s' =>
      s'.fs = s.fs ∧ (∃ bytes, readiLoop sb (Writer.kernel sb) ip w n rounds tot (off + tot) out s.fs =
        .ok ((r, bytes), s.fs)) ∧
      ∃ m, Delivered pagetable s₀.mem s'.mem addr (fileByte s.fs ip off) n r m) (fun _ => False) s := by
  induction rounds generalizing s tot out with
  | zero => omega
  | succ rounds ih =>
    rw [readiUserLoop, readiLoop]
    by_cases hlt : tot < n
    · have hsome : off + tot < (s.fs.itable ip).size := by omega
      obtain ⟨b, hb, hbmap, hbread, rfl⟩ := h.fetch hsome
      have hm : min (n - tot) (BSIZE - (off + tot) % BSIZE) ≤ BSIZE - (off + tot) % BSIZE :=
        Nat.min_le_right ..
      have hmn : min (n - tot) (BSIZE - (off + tot) % BSIZE) ≤ n - tot := Nat.min_le_left ..
      have hpos := round_pos (off + tot) hlt
      have hcap : n < 2 ^ 64 := by
        have := h.disk.size_le _ h.alloc
        rw [flush_self] at this
        have hmax : MAXFILE * BSIZE < 2 ^ 64 := by decide
        omega
      rw [if_pos hlt, if_pos hlt, bind_of_ok hbmap, if_neg hb, bind_of_ok hbread, wp_bind]
      refine wp_zoom.2 (wp_of_eq hbmap ?_)
      rw [if_neg hb, wp_bind]
      refine wp_zoom.2 (wp_of_eq hbread ?_)
      dsimp only
      rw [wp_bind]
      generalize min (n - tot) (BSIZE - (off + tot) % BSIZE) = m at *
      refine wp_zoom.2 (wp_copyRound ht hdone (by omega) (fun k hk => ?_) ?_ ?_)
      · -- a round stays in one block
        have hdiv : (off + tot + k) / BSIZE = (off + tot) / BSIZE :=
          round_block hm (by omega) (by omega)
        have hmod : (off + tot) % BSIZE + k = (off + tot + k) % BSIZE := by
          simp only [BSIZE] at *
          omega
        rw [fileByte, byteAt, ← Nat.add_assoc, hdiv, ← hmod]
      · intro mem₂ hround hcopied
        rw [if_pos rfl, if_pos ?_]
        · rw [show plus addr tot + BitVec.ofNat 64 m = plus (plus addr tot) m from rfl, Vm.plus_plus,
            Nat.add_assoc]
          exact ih (s := { s with mem := mem₂ }) h hsize (tot + m) _ (by omega) (by omega) hcopied
            (forall_lt_add hwrite hround)
        · refine List.all_eq_true.2 fun k hk => ?_
          have hk := List.mem_range.1 hk
          exact (hw _ (by omega)).2 (hround k hk)
      · intro mem₂ j hj hround hno hcopied
        rw [if_neg Bool.false_ne_true, if_neg ?_]
        · exact ⟨rfl, ⟨out, rfl⟩, tot + j, by omega, hcopied, forall_lt_add hwrite hround,
            Or.inr ⟨rfl, by omega, hno⟩⟩
        · intro hall
          exact hno ((hw _ (by omega)).1 (List.all_eq_true.1 hall j (List.mem_range.2 hj)))
    · rw [if_neg hlt, if_neg hlt]
      obtain rfl : tot = n := by omega
      exact ⟨rfl, ⟨out, rfl⟩, tot, Nat.le_refl _, hdone, hwrite, Or.inl ⟨rfl, rfl⟩⟩

/-- The bytes `readi` goes for. -/
def readCount (size off n : Nat) : Nat :=
  if off > size ∨ (off + n) % 2 ^ 32 < off then 0
  else if (off + n) % 2 ^ 32 > size then size - off
  else n

theorem readCount_le (size : Nat) (hn : n < 2 ^ 32) (hoff : off < 2 ^ 32) :
    readCount size off n ≤ n ∧ (off ≤ size → off + readCount size off n ≤ size) ∧
      (size < off → readCount size off n = 0) := by
  unfold readCount
  split_ifs <;> omega

theorem wp_readiUser {w : Nat → Bool} (h : Ready sb s.fs ip) (ht : Vm.UserTable s.mem.pte pagetable)
    (hn : n < 2 ^ 32) (hoff : off < 2 ^ 32)
    (hw : ∀ k < n, w k = true ↔ Vm.Writable s.mem.pte pagetable (plus addr k)) :
    wp (readiUser sb pagetable ip addr off n) (fun r s' =>
      s'.fs = s.fs ∧ (∃ bytes, readi sb ip w off n s.fs = .ok ((r, bytes), s.fs)) ∧
      ∃ m, Delivered pagetable s.mem s'.mem addr (fileByte s.fs ip off)
        (readCount (s.fs.itable ip).size off n) r m) (fun _ => False) s := by
  have hget : getInode ip s.fs = .ok (s.fs.itable ip, s.fs) := rfl
  obtain ⟨hcount, hsize, -⟩ := readCount_le (s.fs.itable ip).size hn hoff
  have hzero := Vm.Copied.zero ht.table addr (fileByte s.fs ip off)
  rw [readiUser, readi, readiWith, bind_of_ok hget, wp_bind]
  refine wp_zoom.2 (wp_of_eq hget ?_)
  by_cases hc : off > (s.fs.itable ip).size ∨ (off + n) % 2 ^ 32 < off
  · rw [if_pos hc, if_pos hc, readCount, if_pos hc]
    exact ⟨rfl, ⟨[], rfl⟩, 0, Nat.le_refl _, hzero, fun _ h0 => absurd h0 (Nat.not_lt_zero _),
      Or.inl ⟨rfl, rfl⟩⟩
  · have hle := hsize (by omega)
    rw [if_neg hc, if_neg hc]
    rw [readCount, if_neg hc] at hcount hle ⊢
    have hloop := wp_readiUserLoop h ht hle (fun k hk => hw k (by omega)) (_ + 1) 0 []
      (Nat.lt_succ_self _) (Nat.zero_le _) hzero (fun _ h0 => absurd h0 (Nat.not_lt_zero _))
    rwa [Vm.plus_zero] at hloop

/-- An open file of type `FD_INODE`; its inode is in memory and not locked. -/
structure OpenInode (fs : State) (f : FileId) : Prop where
  type : (fs.ftable f).type = .inode
  /-- `off` is a `uint`. -/
  off : (fs.ftable f).off < 2 ^ 32
  ref : 0 < (fs.itable (fs.ftable f).ip).ref
  valid : (fs.itable (fs.ftable f).ip).valid = true
  unlocked : (fs.itable (fs.ftable f).ip).locked = false

/-- With the inode locked. -/
def State.lock (fs : State) (ip : InodeId) : State :=
  fs.withInode ip { fs.itable ip with locked := true }

theorem State.lock_self (fs : State) (ip : InodeId) :
    (fs.lock ip).itable ip = { fs.itable ip with locked := true } := update_self ..

theorem ilock_eq (sb : Superblock) (hr : 0 < (fs.itable ip).ref) (hv : (fs.itable ip).valid = true)
    (hl : (fs.itable ip).locked = false) : ilock sb ip fs = .ok ((), fs.lock ip) := by
  have hget : getInode ip fs = .ok (fs.itable ip, fs) := rfl
  have hacquire : acquiresleep ip fs = .ok ((), fs.lock ip) := by
    rw [acquiresleep, bind_of_ok hget, hl]
    rfl
  rw [ilock, bind_of_ok hget, if_neg (by omega), bind_of_ok hacquire, hv]
  rfl

theorem Ready.lock (h : Ready sb fs ip) : Ready sb (fs.lock ip) ip := by
  have hflush : (fs.lock ip).flush ip = fs.flush ip := by
    rw [State.flush, State.flush, State.lock_self]
    rfl
  refine ⟨?_, ?_⟩
  · rw [hflush]
    exact h.disk
  · rw [hflush, State.lock_self]
    exact h.alloc

theorem iunlock_eq (hr : 0 < (fs.itable ip).ref) (hl : (fs.itable ip).locked = false) :
    iunlock ip (fs.lock ip) = .ok ((), fs) := by
  have hget : getInode ip (fs.lock ip) = .ok ({ fs.itable ip with locked := true }, fs.lock ip) := by
    rw [← State.lock_self]
    rfl
  have hback : { fs.itable ip with locked := false } = fs.itable ip := by
    rw [← hl]
  have hitable : update (update fs.itable ip { fs.itable ip with locked := true }) ip
      { (update fs.itable ip { fs.itable ip with locked := true }) ip with locked := false } =
        fs.itable := by
    rw [update_self, update_idem, hback, update_eq_self]
  rw [iunlock, bind_of_ok hget, if_neg ?_]
  · exact congrArg (fun itable => (Except.ok ((), { fs with itable := itable }) :
      Except Stop (Unit × State))) hitable
  · rintro (h | h)
    · cases h
    · exact absurd (show (fs.itable ip).ref < 1 from h) (by omega)

theorem fileByte_lock (fs : State) (ip : InodeId) : fileByte (fs.lock ip) ip = fileByte fs ip := by
  funext off k
  rw [fileByte, State.lock_self]
  rfl

/-- The file's offset moved by `r`, if that is positive. -/
def State.advance (fs : State) (f : FileId) (r : Int) : State :=
  fs.withFile f { fs.ftable f with off := (fs.ftable f).off + r.toNat }

theorem State.advance_nonpos {r : Int} (hr : r ≤ 0) : fs.advance f r = fs := by
  have hsame : { fs.ftable f with off := (fs.ftable f).off + r.toNat } = fs.ftable f := by
    rw [Int.toNat_of_nonpos hr]
    rfl
  rw [advance, hsame]
  exact congrArg (fun ftable => { fs with ftable := ftable }) (update_eq_self ..)

/-- Reading does not take the offset past the size. -/
theorem Ready.off_lt {mem mem' : Vm.Mem} {src : Nat → Byte} {m : Nat} {r : Int} (h : Ready sb fs ip)
    (hoff : off < 2 ^ 32) (hn : n < 2 ^ 32)
    (hdel : Delivered pagetable mem mem' addr src (readCount (fs.itable ip).size off n) r m)
    (hpos : r > 0) : off + r.toNat < 2 ^ 32 := by
  have hcap : (fs.itable ip).size < 2 ^ 32 := by
    have := h.disk.size_le _ h.alloc
    rw [flush_self] at this
    exact Nat.lt_of_le_of_lt this (by decide)
  obtain ⟨-, hle, hzero⟩ := readCount_le (fs.itable ip).size hn hoff
  rcases hdel.result with ⟨rfl, -⟩ | ⟨rfl, -⟩
  · rw [Int.toNat_natCast]
    omega
  · exact absurd hpos (by decide)

/-- What `fileread` does: it returns `r`. The last part says that it is the `fileread` of the model without
    memory. -/
theorem wp_filereadInode {w : Nat → Bool} (n : Int) (env : Env) (hg : Good sb s.fs)
    (hf : OpenInode s.fs f) (ht : Vm.UserTable s.mem.pte pagetable)
    (hw : ∀ k, w k = true ↔ Vm.Writable s.mem.pte pagetable (plus addr k)) :
    wp (filereadInode sb pagetable f addr n) (fun r s' => s'.fs = s.fs.advance f r ∧
      ((s.fs.ftable f).readable = false → r = -1 ∧ s'.mem = s.mem) ∧
      ((s.fs.ftable f).readable = true → ∃ m, Delivered pagetable s.mem s'.mem addr
        (fileByte s.fs (s.fs.ftable f).ip (s.fs.ftable f).off)
        (readCount (s.fs.itable (s.fs.ftable f).ip).size (s.fs.ftable f).off (toUint n)) r m) ∧
      fileread sb f w n env s.fs = .ok (r, s'.fs)) (fun _ => False) s := by
  have hget : getFile f s.fs = .ok (s.fs.ftable f, s.fs) := rfl
  have hlock := ilock_eq sb hf.ref hf.valid hf.unlocked
  have hready := hg.ready hf.ref hf.valid
  rw [filereadInode, fileread, filereadWith, bind_of_ok hget, wp_bind]
  refine wp_zoom.2 (wp_of_eq hget ?_)
  cases hr : (s.fs.ftable f).readable with
  | false =>
    refine ⟨(State.advance_nonpos (by decide)).symm, fun _ => ⟨rfl, rfl⟩, (fun h => by cases h), ?_⟩
    rfl
  | true =>
    rw [if_neg (by decide), if_neg (by decide), hf.type]
    dsimp only
    rw [bind_of_ok hlock, wp_bind]
    refine wp_zoom.2 (wp_of_eq hlock ?_)
    rw [wp_bind]
    have hread : wp (readiUser sb pagetable (s.fs.ftable f).ip addr (s.fs.ftable f).off (toUint n)) _
        (fun _ => False) { s with fs := s.fs.lock (s.fs.ftable f).ip } :=
      wp_readiUser hready.lock ht (toUint_lt n) hf.off (fun k _ => hw k)
    refine hread.mono ?_ fun _ he => he
    rintro r ⟨fs₁, mem₁⟩ ⟨rfl, ⟨bytes, hbytes⟩, m, hdel⟩
    rw [fileByte_lock, State.lock_self] at hdel
    rw [bind_of_ok (show readiWith sb (Writer.kernel sb) _ w _ _ _ = _ from hbytes)]
    dsimp only
    by_cases hpos : r > 0
    · have hset : setFile f (fun x => { x with off := (x.off + r.toNat) % 2 ^ 32 })
          (s.fs.lock (s.fs.ftable f).ip) = .ok ((), (s.fs.advance f r).lock (s.fs.ftable f).ip) := by
        rw [State.advance, ← Nat.mod_eq_of_lt (hready.off_lt hf.off (toUint_lt n) hdel hpos)]
        rfl
      have hunlock : iunlock (s.fs.ftable f).ip ((s.fs.advance f r).lock (s.fs.ftable f).ip) =
          .ok ((), s.fs.advance f r) := iunlock_eq hf.ref hf.unlocked
      rw [if_pos hpos, if_pos hpos, bind_of_ok hset, bind_of_ok hunlock, wp_bind]
      refine wp_zoom.2 (wp_of_eq hset ?_)
      rw [wp_bind]
      refine wp_zoom.2 (wp_of_eq hunlock ?_)
      exact ⟨rfl, (fun h => by cases h), fun _ => ⟨m, hdel⟩, rfl⟩
    · have hunlock := iunlock_eq hf.ref hf.unlocked
      rw [if_neg hpos, if_neg hpos, bind_of_ok hunlock, wp_bind]
      refine wp_zoom.2 (wp_of_eq hunlock ?_)
      exact ⟨(State.advance_nonpos (by omega)).symm, (fun h => by cases h), fun _ => ⟨m, hdel⟩, rfl⟩

/-- The count is kept, unless it is negative and the sum with the offset does not wrap. -/
theorem readCount_toUint_le {size : Nat} {n : Int} (hn : -2 ^ 31 ≤ n ∧ n < 2 ^ 31)
    (h : 0 ≤ n ∨ -n ≤ off ∨ size ≤ off) (hoff : off < 2 ^ 32) :
    readCount size off (toUint n) ≤ n.toNat := by
  unfold readCount toUint
  split_ifs <;> omega

/-- Otherwise `readi` goes for the rest of the file. -/
theorem readCount_toUint_eq {size : Nat} {n : Int} (hn : -2 ^ 31 ≤ n ∧ n < 2 ^ 31)
    (h : ¬ (0 ≤ n ∨ -n ≤ off ∨ size ≤ off)) (hsize : size ≤ MAXFILE * BSIZE) :
    readCount size off (toUint n) = size - off := by
  have hmax : MAXFILE * BSIZE < 2 ^ 31 := by decide
  unfold readCount toUint
  split_ifs <;> omega

/-- `fileread` delivers at most `n` bytes exactly if the file is not readable, or `n` is not negative,
    or the offset is at least `-n` or not below the size, or the copying stops at a page that cannot be
    written when it has changed nothing. -/
theorem fileread_at_most (hg : Good sb s.fs) (hf : OpenInode s.fs f)
    (ht : Vm.UserTable s.mem.pte pagetable) (addr : Word) (n : Int) (hn : -2 ^ 31 ≤ n ∧ n < 2 ^ 31) :
    (∃ r s', filereadInode sb pagetable f addr n s = .ok (r, s') ∧ r ≤ max n 0 ∧
      (s'.fs.ftable f).off = (s.fs.ftable f).off + (max r 0).toNat ∧
      Vm.Same s.mem.pte s'.mem.pte pagetable ∧
      ∀ va, (∀ k < (max n 0).toNat, va ≠ plus addr k) →
        userByte s'.mem pagetable va = userByte s.mem pagetable va) ↔
    (s.fs.ftable f).readable = false ∨ (0 ≤ n ∨ -n ≤ (s.fs.ftable f).off ∨
      (s.fs.itable (s.fs.ftable f).ip).size ≤ (s.fs.ftable f).off) ∨
      ∃ k < (s.fs.itable (s.fs.ftable f).ip).size - (s.fs.ftable f).off,
        ¬ Vm.Writable s.mem.pte pagetable (plus addr k) ∧
        ∀ j < k, userByte s.mem pagetable (plus addr j) =
          some (fileByte s.fs (s.fs.ftable f).ip (s.fs.ftable f).off j) := by
  classical
  have hread := wp_filereadInode n ⟨0, false, []⟩ hg hf ht
    (fun k => decide_eq_true_iff (p := Vm.Writable s.mem.pte pagetable (plus addr k)))
  obtain ⟨r, s', hrun, hfs, hno, hyes, -⟩ := hread.exists_ok
  have hoff : (s'.fs.ftable f).off = (s.fs.ftable f).off + (max r 0).toNat := by
    rw [hfs, State.advance, State.withFile_ftable, update_self]
    show _ + r.toNat = _
    omega
  have hmax : (max n 0).toNat = n.toNat := by omega
  have hsize : (s.fs.itable (s.fs.ftable f).ip).size ≤ MAXFILE * BSIZE := by
    have hready := hg.ready hf.ref hf.valid
    have := hready.disk.size_le _ hready.alloc
    rwa [flush_self] at this
  constructor
  · rintro ⟨_, _, hrun', hle, -, -, hbytes⟩
    rw [hrun] at hrun'
    cases hrun'
    rw [or_iff_not_imp_left, or_iff_not_imp_left]
    intro hreadable hcount
    obtain ⟨m, hdel⟩ := hyes (by simpa using hreadable)
    rw [readCount_toUint_eq hn hcount hsize] at hdel
    rcases hdel.result with ⟨rfl, -⟩ | ⟨-, hm, hw⟩
    · omega
    · refine ⟨m, hm, hw, fun j hj => ?_⟩
      rw [← hdel.copied.bytes j hj]
      exact (hbytes _ fun k hk => by omega).symm
  · intro h
    refine ⟨r, s', hrun, ?_⟩
    rw [hmax]
    cases hr : (s.fs.ftable f).readable with
    | false =>
      obtain ⟨rfl, hmem⟩ := hno hr
      rw [hmem]
      exact ⟨by omega, hoff, ht.table.same fun _ _ => rfl, fun _ _ => rfl⟩
    | true =>
      obtain ⟨m, hdel⟩ := hyes hr
      by_cases hcount : 0 ≤ n ∨ -n ≤ (s.fs.ftable f).off ∨
          (s.fs.itable (s.fs.ftable f).ip).size ≤ (s.fs.ftable f).off
      · have hcount := readCount_toUint_le hn hcount hf.off
        refine ⟨?_, hoff, hdel.copied.same, fun va hva => hdel.copied.other va fun k hk => hva k ?_⟩
        · rcases hdel.result with ⟨rfl, -⟩ | ⟨rfl, -⟩ <;> omega
        · exact Nat.lt_of_lt_of_le hk (hdel.le.trans hcount)
      · rw [hr] at h
        obtain ⟨k, hk, hw, hsame⟩ := (h.resolve_left (by decide)).resolve_left hcount
        rw [readCount_toUint_eq hn hcount hsize] at hdel
        -- the copying has stopped at `k` or before
        have hmk : m ≤ k := Nat.le_of_not_lt fun hlt => hw (hdel.writable k hlt)
        refine ⟨?_, hoff, hdel.copied.same, fun va _ => ?_⟩
        · rcases hdel.result with ⟨-, rfl⟩ | ⟨rfl, -⟩ <;> omega
        · by_cases hva : ∃ j < m, va = plus addr j
          · obtain ⟨j, hj, rfl⟩ := hva
            rw [hdel.copied.bytes j hj, hsame j (by omega)]
          · exact hdel.copied.other va fun j hj he => hva ⟨j, hj, he⟩

def firstFile : FileId := ⟨0, by decide⟩

/-- The root directory of the small disk is open. -/
def openRoot : State :=
  (tiny.withInode rootSlot
    { toDinode := rootDinode, inum := ROOTINO, ref := 1, locked := false, valid := true }).withFile
    firstFile { type := .inode, ref := 1, readable := true, writable := false, pipe := 0,
                ip := rootSlot, off := 0, major := 0 }

theorem openRoot_good : Good tinySb openRoot := by
  have h : Good tinySb (tiny.withInode rootSlot
      { toDinode := rootDinode, inum := ROOTINO, ref := 1, locked := false, valid := true }) := by
    refine (Rep.withInode ⟨tiny_good, rfl⟩ _ (by decide) (fun _ => by decide) (fun _ jp hj hr _ => ?_)
      (fun _ _ => ⟨rfl, by decide⟩)).1
    exact hj (boot_ref_pos hr)
  exact ⟨h.disk, h.ref_nonneg, h.range, h.unique, h.coherent, h.nlink_short⟩

theorem openRoot_open : OpenInode openRoot firstFile :=
  ⟨rfl, by decide, by decide, rfl, rfl⟩

/-- Five bytes into a page of memory. -/
theorem fileread_at_most_root :
    ∃ mem, Vm.mappages 0x80001000 0 0x1000 0x80002000 (Vm.PTE_R ||| Vm.PTE_W ||| Vm.PTE_U)
        Vm.twoFree = .ok (true, mem) ∧
      ∃ r s', filereadInode tinySb 0x80001000 firstFile 0 5 ⟨openRoot, mem⟩ = .ok (r, s') ∧ r ≤ 5 ∧
        (s'.fs.ftable firstFile).off = (max r 0).toNat := by
  obtain ⟨mem, hrun⟩ := Vm.onePage_mapped
  obtain ⟨r, s', hread, hle, hoff, -⟩ := (fileread_at_most (s := ⟨openRoot, mem⟩) openRoot_good
    openRoot_open (Vm.onePage_userTable hrun) 0 5 (by decide)).2 (Or.inr (Or.inl (Or.inl (by decide))))
  exact ⟨mem, hrun, r, s', hread, hle, hoff.trans (Nat.zero_add _)⟩

/-- A count of -1 at offset 0 delivers the whole file. -/
theorem fileread_negative :
    ∃ mem, Vm.mappages 0x80001000 0 0x1000 0x80002000 (Vm.PTE_R ||| Vm.PTE_W ||| Vm.PTE_U)
        Vm.twoFree = .ok (true, mem) ∧
      ∃ s', filereadInode tinySb 0x80001000 firstFile 0 (-1) ⟨openRoot, mem⟩ = .ok (32, s') ∧
        (s'.fs.ftable firstFile).off = 32 ∧ userByte s'.mem 0x80001000 0 = some 1 := by
  classical
  obtain ⟨mem, hrun⟩ := Vm.onePage_mapped
  obtain ⟨r, s', hrun', hfs, -, hyes, -⟩ :=
    (wp_filereadInode (s := ⟨openRoot, mem⟩) (-1) ⟨0, false, []⟩ openRoot_good openRoot_open
      (Vm.onePage_userTable hrun) (fun k => decide_eq_true_iff
        (p := Vm.Writable mem.pte 0x80001000 (plus 0 k)))).exists_ok
  obtain ⟨m, hdel⟩ := hyes rfl
  have hcount : readCount (openRoot.itable (openRoot.ftable firstFile).ip).size
      (openRoot.ftable firstFile).off (toUint (-1)) = 32 := by decide
  rw [hcount] at hdel
  have hr : r = 32 ∧ m = 32 := by
    refine hdel.result.resolve_right ?_
    rintro ⟨-, hk, hno⟩
    have h0 : (0 : Word).toNat % 4096 = 0 := rfl
    exact hno (Vm.onePage_writable hrun (by decide) (by omega))
  obtain ⟨rfl, rfl⟩ := hr
  refine ⟨mem, hrun, s', hrun', ?_, ?_⟩
  · rw [hfs, State.advance, State.withFile_ftable, update_self]
    rfl
  · have hbyte : fileByte openRoot rootSlot 0 0 = 1 := by decide
    exact (hdel.copied.bytes 0 (by decide)).trans (congrArg some hbyte)

end Xv6.Fs
