import X86OsDev.Lib.Memory

/-! # The allocator of the user programs (umalloc.c)

Free blocks start with a header, which has the address of the next one and the size of the block
in headers. They are a ring in the order of the addresses, from the static header `base` on, and
memory comes from `sbrk`.
-/
namespace X86OsDev.Xv6.Umalloc
open Memory

def PGSIZE : ℕ := 4096
def KERNBASE : ℕ := 0x80000000

/-- A `uint` or a pointer. -/
def word (n : ℕ) : ℕ := n % 2 ^ 32

/-- The memory of the process, its size, and the variable `freep`. -/
structure Sys where
  mem : Mem
  sz : ℕ
  freep : ℕ

/-- `p->s.ptr` -/
def ptr (m : Mem) (p : ℕ) : ℕ := load32 m p

/-- `p->s.size` -/
def size (m : Mem) (p : ℕ) : ℕ := load32 m (word (p + 4))

def setPtr (m : Mem) (p v : ℕ) : Mem := store32 m p v
def setSize (m : Mem) (p v : ℕ) : Mem := store32 m (word (p + 4)) v

/-- The loop of `free`. -/
def findPlace (m : Mem) (bp : ℕ) : ℕ → ℕ → Option ℕ
  | 0, _ => none
  | fuel + 1, p =>
    if p < bp ∧ bp < ptr m p then some p
    else if ptr m p ≤ p ∧ (p < bp ∨ bp < ptr m p) then some p
    else findPlace m bp fuel (ptr m p)

/-- The block at `bp` is put before the next one, or merged with it. -/
def joinNext (m : Mem) (bp p : ℕ) : Mem :=
  if word (bp + 8 * size m bp) = ptr m p then
    let m := setSize m bp (size m bp + size m (ptr m p))
    setPtr m bp (ptr m (ptr m p))
  else setPtr m bp (ptr m p)

/-- It is put behind the one at `p`, or merged with it. -/
def joinPrev (m : Mem) (bp p : ℕ) : Mem :=
  if word (p + 8 * size m p) = bp then
    let m := setSize m p (size m p + size m bp)
    setPtr m p (ptr m bp)
  else setPtr m p bp

def free (fuel ap : ℕ) (s : Sys) : Option Sys :=
  let bp := word (ap + (2 ^ 32 - 8))
  (findPlace s.mem bp fuel s.freep).map fun p => { s with mem := joinPrev (joinNext s.mem bp p) bp p, freep := p }

def PGROUNDUP (a : ℕ) : ℕ := (a + PGSIZE - 1) / PGSIZE * PGSIZE

/-- `sbrk`, with `growproc`. `grant` tells whether the kernel has the pages to grow from one size to
another, and `none` stands for -1. The pages that are new are zero. -/
def sbrk (grant : ℕ → ℕ → Bool) (n : ℕ) (s : Sys) : Option (ℕ × Sys) :=
  let new := word (s.sz + n)
  if n = 0 then some (s.sz,s)
  else if n < 2 ^ 31 then
    if KERNBASE ≤ new then none
    else if new < s.sz then some (s.sz,s)
    else if grant s.sz new then
      let a := PGROUNDUP s.sz
      some (s.sz,{ s with mem := fill s.mem a (PGROUNDUP new - a) 0, sz := new })
    else none
  else if s.sz ≤ new then (if s.sz = 0 then none else some (s.sz,s))
  else if new = 0 then none
  else some (s.sz,{ s with sz := new })

def morecore (grant : ℕ → ℕ → Bool) (fuel nu : ℕ) (s : Sys) : Option (ℕ × Sys) :=
  let nu := if nu < 4096 then 4096 else nu
  match sbrk grant (word (nu * 8)) s with
  | none => some (0,s)
  | some (p,s) => (free fuel (word (p + 8)) { s with mem := setSize s.mem p nu }).map fun s => (s.freep,s)

/-- A block of `nunits` headers is taken out of the one at `p`, behind the one at `prevp`. -/
def take (nunits prevp p : ℕ) (s : Sys) : ℕ × Sys :=
  if size s.mem p = nunits then (word (p + 8),{ s with mem := setPtr s.mem prevp (ptr s.mem p), freep := prevp })
  else
    let m := setSize s.mem p (size s.mem p - nunits)
    let q := word (p + 8 * size m p)
    (word (q + 8),{ s with mem := setSize m q nunits, freep := prevp })

/-- The loop of `malloc`. -/
def findBlock (grant : ℕ → ℕ → Bool) (nunits : ℕ) : ℕ → ℕ → ℕ → Sys → Option (ℕ × Sys)
  | 0, _, _, _ => none
  | fuel + 1, prevp, p, s =>
    if nunits ≤ size s.mem p then some (take nunits prevp p s)
    else if p = s.freep then
      (morecore grant fuel nunits s).bind fun (p,s) =>
        if p = 0 then some (0,s) else findBlock grant nunits fuel p (ptr s.mem p) s
    else findBlock grant nunits fuel p (ptr s.mem p) s

/-- The size in headers, with one for the header. -/
def nunits (nbytes : ℕ) : ℕ := word (word (nbytes + 7) / 8 + 1)

/-- `malloc`, with the address of the static header. -/
def malloc (grant : ℕ → ℕ → Bool) (base fuel nbytes : ℕ) (s : Sys) : Option (ℕ × Sys) :=
  let s := if s.freep = 0 then { s with mem := setSize (setPtr s.mem base base) base 0, freep := base } else s
  findBlock grant (nunits nbytes) fuel s.freep (ptr s.mem s.freep) s

end X86OsDev.Xv6.Umalloc
