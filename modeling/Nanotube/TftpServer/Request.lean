/-
  Nanotube.TftpServer.Request — which packets open a file, and which? (src/lwIP/apps/tftp/
  tftp_server.c `recv`, the case TFTP_RRQ and TFTP_WRQ; src/lwIP/core/pbuf.c `pbuf_memfind`,
  `pbuf_copy_partial`)

  A request is the opcode, a file name and a mode, each with a NUL behind it. `recv` takes
  the opcode from the payload of the first pbuf, looks for the two NULs with `pbuf_memfind`,
  which gives 0xFFFF when there is none, and copies what stands before them to arrays of 21
  and 8 bytes.

  Proved, at any point of any run and for a packet in any chain of pbufs whose first one
  holds the opcode: while a transfer is open no packet opens a file; without one `recv`
  calls `open` once if the packet's bytes are those of a request with a name of at most 20
  bytes and a mode of at most 7, whatever follows, with just these, and it does not call it
  for any other packet (`request_exact`).
-/

import Nanotube.TftpServer.Model

namespace Nanotube.TftpServer

open Nanotube.Device.Transmit (Memory Chain totLen load length_load length_contents)
open Nanotube.Lwip.Pbufs (Pbuf Consistent Bytes.memfind pbufMemfind pbufCopyPartial pbufMemfind_eq pbufCopyPartial_eq)
open Nanotube.Lib.Runs Nanotube.Lib.Wire

variable {φ H : Type}

/-! ## A packet in pbufs -/

theorem contents_pbufsOf (mem : Memory) (qs : List Nanotube.Device.Transmit.Pbuf) :
    Nanotube.Lwip.Pbufs.contents (pbufsOf mem qs) = Nanotube.Device.Transmit.contents mem qs := by
  induction qs with
  | nil => rfl
  | cons q qs ih => rw [pbufsOf, Nanotube.Lwip.Pbufs.contents, ih, Nanotube.Device.Transmit.contents]

theorem consistent_pbufsOf (mem : Memory) {qs : List Nanotube.Device.Transmit.Pbuf} (h : totLen qs < 65536) :
    Consistent (pbufsOf mem qs) := by
  induction qs with
  | nil => trivial
  | cons q qs ih =>
    have htot : totLen (q :: qs) = q.len + totLen qs := rfl
    refine ⟨?_, ih (by omega)⟩
    rw [contents_pbufsOf, length_contents, Pbuf.len, length_load]
    exact Nat.mod_eq_of_lt h

/-! ## Looking for one byte -/

/-- The byte behind a stretch without it is found. -/
theorem memfind_at {pre str rest : List UInt8} {b : UInt8} (h : b ∉ str) :
    Bytes.memfind (pre ++ (str ++ b :: rest)) [b] pre.length = pre.length + str.length := by
  have hfound : ((List.range' pre.length ((pre ++ (str ++ b :: rest)).length + 1 - pre.length)).find? fun i =>
      i + [b].length ≤ (pre ++ (str ++ b :: rest)).length ∧ [b] <+: (pre ++ (str ++ b :: rest)).drop i) =
      some (pre.length + str.length) := by
    rw [List.find?_range'_eq_some]
    refine ⟨?_, ?_, ?_⟩
    · rw [decide_eq_true_eq, ← List.append_assoc, ← List.length_append, List.drop_left]
      refine ⟨?_, List.prefix_append [b] rest⟩
      simp only [List.length_append, List.length_cons, List.length_nil]
      omega
    · rw [List.mem_range'_1]
      simp only [List.length_append, List.length_cons]
      omega
    · -- an earlier one would stand in the stretch
      intro j hj hlt
      obtain ⟨k, rfl⟩ := Nat.exists_eq_add_of_le hj
      have hk : k < str.length := by omega
      rw [Bool.not_eq_true', decide_eq_false_iff_not, ← List.drop_drop, List.drop_left,
        List.drop_append_of_le_length (Nat.le_of_lt hk), List.drop_eq_getElem_cons hk, List.cons_append,
        List.cons_prefix_cons]
      intro hcons
      obtain ⟨heq, -⟩ := hcons.2
      exact h (heq ▸ List.getElem_mem hk)
  rw [Bytes.memfind, hfound, Option.getD_some]

theorem memfind_none {bs : List UInt8} {b : UInt8} {k : Nat} (h : b ∉ bs.drop k) :
    Bytes.memfind bs [b] k = 0xFFFF := by
  have hnone : ((List.range' k (bs.length + 1 - k)).find? fun i =>
      i + [b].length ≤ bs.length ∧ [b] <+: bs.drop i) = none := by
    rw [List.find?_eq_none]
    intro j hj
    rw [List.mem_range'_1] at hj
    rw [decide_eq_true_eq]
    intro hfound
    have hpre := hfound.2
    obtain ⟨i, rfl⟩ := Nat.exists_eq_add_of_le hj.1
    rw [← List.drop_drop] at hpre
    exact h (List.mem_of_mem_drop (hpre.subset (List.mem_singleton.mpr rfl)))
  rw [Bytes.memfind, hnone]
  rfl

/-! ## Requests -/

/-- The opcode of a request. -/
def requestOp (write : Bool) : List UInt8 := be16 (if write then TFTP_WRQ else TFTP_RRQ)

/-- The bytes of a request with this opcode for this file in this mode. -/
structure IsRequest (op bs name mode : List UInt8) : Prop where
  form : ∃ rest, bs = op ++ (name ++ 0 :: (mode ++ 0 :: rest))
  name_nul : 0 ∉ name
  mode_nul : 0 ∉ mode
  name_len : name.length ≤ TFTP_MAX_FILENAME_LEN
  mode_len : mode.length ≤ TFTP_MAX_MODE_LEN

/-- A string at offset `k`, with its NUL: where the NUL is found, and what is copied. -/
theorem string_at {bs pre str rest : List UInt8} {k : Nat} (hbs : bs = pre ++ (str ++ 0 :: rest)) (hk : pre.length = k)
    (h : 0 ∉ str) :
    Bytes.memfind bs [0] k = k + str.length ∧ (bs.drop k).take (str.length + 1) = str ++ [0] := by
  subst hbs hk
  refine ⟨memfind_at h, ?_⟩
  rw [List.drop_left, List.take_append, List.take_of_length_le (Nat.le_succ _), Nat.add_sub_cancel_left]
  rfl

/-- If a NUL is found from offset `k` on, a string stands there. -/
theorem string_of_memfind {bs : List UInt8} {k : Nat} (h : Bytes.memfind bs [0] k ≠ 0xFFFF) :
    ∃ pre str rest, bs = pre ++ (str ++ 0 :: rest) ∧ pre.length = k ∧ 0 ∉ str := by
  have hmem : (0 : UInt8) ∈ bs.drop k := by
    by_contra h0
    exact h (memfind_none h0)
  obtain ⟨str, rest, hdrop, hnul⟩ := List.eq_append_cons_of_mem hmem
  refine ⟨bs.take k, str, rest, by rw [← hdrop, List.take_append_drop], ?_, hnul⟩
  have hlen := congrArg List.length hdrop
  simp only [List.length_drop, List.length_append, List.length_cons] at hlen
  rw [List.length_take]
  omega

/-- The two searches and the two copies on the bytes of the packet. -/
theorem parseRequest_eq {p : List Pbuf} (hne : p ≠ []) (hc : Consistent p) :
    parseRequest p =
      (let bs := Nanotube.Lwip.Pbufs.contents p
      let filenameEndOffset := Bytes.memfind bs [0] 2
      if filenameEndOffset - 1 > TFTP_MAX_FILENAME_LEN + 1 then .error "Filename too long/not NULL terminated"
      else
        let modeEndOffset := Bytes.memfind bs [0] (filenameEndOffset + 1)
        if modeEndOffset - filenameEndOffset > TFTP_MAX_MODE_LEN + 1 then .error "Mode too long/not NULL terminated"
        else .ok ((bs.drop 2).take (filenameEndOffset - 1),
          (bs.drop (filenameEndOffset + 1)).take (modeEndOffset - filenameEndOffset))) := by
  simp only [parseRequest, pbufMemfind_eq hne hc, pbufCopyPartial_eq]

theorem parseRequest_ok_iff {p : List Pbuf} (hne : p ≠ []) (hc : Consistent p) (f m : List UInt8) :
    parseRequest p = .ok (f, m) ↔
      ∃ op name mode, op.length = 2 ∧ IsRequest op (Nanotube.Lwip.Pbufs.contents p) name mode ∧ f = name ++ [0] ∧
        m = mode ++ [0] := by
  rw [parseRequest_eq hne hc]
  generalize Nanotube.Lwip.Pbufs.contents p = bs
  simp only
  have hF : TFTP_MAX_FILENAME_LEN = 20 := rfl
  have hM : TFTP_MAX_MODE_LEN = 7 := rfl
  constructor
  · intro h
    by_cases hfits : Bytes.memfind bs [0] 2 - 1 > TFTP_MAX_FILENAME_LEN + 1
    · rw [if_pos hfits] at h
      cases h
    · have hne : Bytes.memfind bs [0] 2 ≠ 0xFFFF := fun h0 => hfits (by rw [h0]; decide)
      obtain ⟨op, name, t, hbs, hop, hname⟩ := string_of_memfind hne
      obtain ⟨hend, hcopy⟩ := string_at hbs hop hname
      rw [if_neg hfits, hend] at h
      rw [hend] at hfits
      by_cases hfits' : Bytes.memfind bs [0] (2 + name.length + 1) - (2 + name.length) > TFTP_MAX_MODE_LEN + 1
      · rw [if_pos hfits'] at h
        cases h
      · have hne' : Bytes.memfind bs [0] (2 + name.length + 1) ≠ 0xFFFF := fun h0 => hfits' (by rw [h0]; omega)
        obtain ⟨pre, mode, rest, hbs', hpre, hmode⟩ := string_of_memfind hne'
        obtain ⟨hend', hcopy'⟩ := string_at hbs' hpre hmode
        rw [if_neg hfits', hend'] at h
        rw [hend'] at hfits'
        -- both descriptions of the bytes have the same first part
        have hsame : pre = op ++ (name ++ [0]) ∧ mode ++ 0 :: rest = t := by
          refine List.append_inj ?_ ?_
          · rw [← hbs', hbs]
            simp
          · rw [hpre, List.length_append, List.length_append, hop]
            rfl
        rw [Except.ok.injEq, Prod.mk.injEq] at h
        have h1 : 2 + name.length - 1 = name.length + 1 := by omega
        have h2 : 2 + name.length + 1 + mode.length - (2 + name.length) = mode.length + 1 := by omega
        rw [h1, hcopy] at h
        rw [h2, hcopy'] at h
        exact ⟨op, name, mode, hop, ⟨⟨rest, by rw [hbs, hsame.2]⟩, hname, hmode, by omega, by omega⟩, h.1.symm, h.2.symm⟩
  · intro h
    obtain ⟨op, name, mode, hop, ⟨⟨rest, hbs⟩, hname, hmode, hnl, hml⟩, rfl, rfl⟩ := h
    obtain ⟨hend, hcopy⟩ := string_at hbs hop hname
    have hbs' : bs = (op ++ (name ++ [0])) ++ (mode ++ 0 :: rest) := by rw [hbs]; simp
    have hpre : (op ++ (name ++ [0])).length = 2 + name.length + 1 := by
      rw [List.length_append, List.length_append, hop]
      rfl
    obtain ⟨hend', hcopy'⟩ := string_at hbs' hpre hmode
    have h1 : 2 + name.length - 1 = name.length + 1 := by omega
    have h2 : 2 + name.length + 1 + mode.length - (2 + name.length) = mode.length + 1 := by omega
    rw [hend, if_neg (by omega), hend', if_neg (by omega), h1, h2, hcopy, hcopy']

/-! ## The calls of open -/

theorem sendBytes_opens (addr : Nat) (port : UInt16) (payload : List UInt8) (s : State φ H) :
    (sendBytes addr port payload s).opens = s.opens := (sends_bytes addr port payload s).handles.1

theorem sendData_opens (ctx : Context φ H) (h : H) (s : State φ H) : (sendData ctx h s).opens = s.opens := by
  have halloc : (pbufAlloc (freeLastData s)).2.opens = s.opens := by
    rcases pbufAlloc_cases (freeLastData s) with ⟨-, mem, ha⟩ | ⟨-, mem, -, ha⟩ <;> rw [ha] <;> rfl
  unfold sendData
  simp only
  split
  next =>
    split
    next => exact (sendBytes_opens _ _ _ _).trans halloc
    next => exact (sends_resendData _).handles.1.trans halloc
  next => exact halloc

theorem takeBlock_opens (ctx : Context φ H) (h : H) (e : Packet) (s : State φ H) :
    (takeBlock ctx h e s).opens = s.opens := by
  have hmid : (if (ctx.writeFile s.files h e (pbufRemoveHeader TFTP_HEADER_LENGTH e.p)).1 < 0
      then closeHandle ctx (sendError e.addr e.port .accessViolation "error writing file"
        (setFiles (ctx.writeFile s.files h e (pbufRemoveHeader TFTP_HEADER_LENGTH e.p)).2 s))
      else sendAck e.blknum (noteAcked e.data
        (setFiles (ctx.writeFile s.files h e (pbufRemoveHeader TFTP_HEADER_LENGTH e.p)).2 s))).opens = s.opens := by
    split
    next => exact sendBytes_opens _ _ _ _
    next => exact sendBytes_opens _ _ _ _
  unfold takeBlock
  simp only
  split
  next => exact hmid
  next => exact hmid

theorem recvData_opens (ctx : Context φ H) (e : Packet) (s : State φ H) : (recvData ctx e s).opens = s.opens := by
  unfold recvData
  split
  next => exact sendBytes_opens _ _ _ _
  next =>
    split
    next => exact sendBytes_opens _ _ _ _
    next =>
      split
      next => exact takeBlock_opens _ _ _ _
      next =>
        split
        next => exact sendBytes_opens _ _ _ _
        next => exact sendBytes_opens _ _ _ _

theorem recvAck_opens (ctx : Context φ H) (e : Packet) (s : State φ H) : (recvAck ctx e s).opens = s.opens := by
  unfold recvAck
  split
  next => exact sendBytes_opens _ _ _ _
  next =>
    split
    next => exact sendBytes_opens _ _ _ _
    next =>
      split
      next => exact sendBytes_opens _ _ _ _
      next =>
        split
        next => rfl
        next => exact sendData_opens _ _ _

/-- What the case RRQ and WRQ opens. -/
def requested (ctx : Context φ H) (write : Bool) (e : Packet) (s : State φ H) : List (Opening H) :=
  match s.handle, parseRequest (pbufsOf e.mem e.p.pbufs) with
  | none, .ok (f, m) => [⟨f, m, write, (ctx.openFile s.files f m write).1⟩]
  | _, _ => []

theorem recvRequest_opens (ctx : Context φ H) (write : Bool) (e : Packet) (s : State φ H) :
    (recvRequest ctx write e s).opens = s.opens ++ requested ctx write e s := by
  have htimeout : (sysTimeout s).opens = s.opens := by
    unfold sysTimeout
    split <;> rfl
  unfold recvRequest requested
  cases s.handle with
  | some h => exact (sendBytes_opens _ _ _ _).trans (List.append_nil _).symm
  | none =>
    cases parseRequest (pbufsOf e.mem e.p.pbufs) with
    | error str => exact ((sendBytes_opens _ _ _ _).trans htimeout).trans (List.append_nil _).symm
    | ok fm =>
      simp only
      split
      next hr => exact (sendBytes_opens _ _ _ _).trans (by rw [← htimeout, hr]; rfl)
      next h hr =>
        split
        next => exact (sendBytes_opens _ _ _ _).trans (by rw [← htimeout, hr]; rfl)
        next => exact (sendData_opens _ _ _).trans (by rw [← htimeout, hr]; rfl)

/-- Only a request opens anything. -/
theorem dispatch_opens (ctx : Context φ H) (e : Packet) (s : State φ H) :
    (dispatch ctx e s).opens = s.opens ++
      (if opcode e = TFTP_RRQ then requested ctx false e s
        else if opcode e = TFTP_WRQ then requested ctx true e s else []) := by
  unfold dispatch
  split
  next => exact recvRequest_opens ctx false e s
  next =>
    split
    next => exact recvRequest_opens ctx true e s
    next =>
      rw [List.append_nil]
      split
      next => exact recvData_opens ctx e s
      next =>
        split
        next => exact recvAck_opens ctx e s
        next => exact sendBytes_opens _ _ _ _

/-- The opcode is the first two bytes of the packet, if these are in the first pbuf. -/
theorem opcode_eq_iff {e : Packet} (hfirst : 2 ≤ e.p.first.len) (n : UInt16) :
    opcode e = n ↔ be16 n <+: Nanotube.Device.Transmit.contents e.mem e.p.pbufs := by
  obtain ⟨k, hk⟩ := Nat.exists_eq_add_of_le hfirst
  have hbytes : Nanotube.Device.Transmit.contents e.mem e.p.pbufs =
      be16 (opcode e) ++ (load e.mem (e.p.first.payload + 2) k ++ Nanotube.Device.Transmit.contents e.mem e.p.rest) := by
    rw [Chain.pbufs, Nanotube.Device.Transmit.contents, hk, Nanotube.Device.Transmit.load_add, List.append_assoc, opcode,
      be16_encode]
    rfl
  rw [hbytes]
  constructor
  · intro h
    rw [h]
    exact List.prefix_append _ _
  · intro h
    have heq : be16 n = be16 (opcode e) := (List.prefix_of_prefix_length_le h (List.prefix_append _ _) (Nat.le_refl _)).eq_of_length rfl
    rw [← read16_be16 n [], ← read16_be16 (opcode e) [], heq]

/-- What is parsed, on the bytes of the packet. -/
theorem parsed_iff {e : Packet} (hlen : totLen e.p.pbufs < 65536) (f m : List UInt8) :
    parseRequest (pbufsOf e.mem e.p.pbufs) = .ok (f, m) ↔
      ∃ op name mode, op.length = 2 ∧ IsRequest op (Nanotube.Device.Transmit.contents e.mem e.p.pbufs) name mode ∧
        f = name ++ [0] ∧ m = mode ++ [0] := by
  have hiff := parseRequest_ok_iff (p := pbufsOf e.mem e.p.pbufs) (by simp [Chain.pbufs, pbufsOf])
    (consistent_pbufsOf e.mem hlen) f m
  rw [contents_pbufsOf] at hiff
  exact hiff

/-- With the opcode of a request, but not a request. -/
theorem requested_nil (ctx : Context φ H) {e : Packet} (s : State φ H) (write : Bool) (hlen : totLen e.p.pbufs < 65536)
    (hop : requestOp write <+: Nanotube.Device.Transmit.contents e.mem e.p.pbufs)
    (hno : ∀ name mode, ¬ IsRequest (requestOp write) (Nanotube.Device.Transmit.contents e.mem e.p.pbufs) name mode) :
    requested ctx write e s = [] := by
  unfold requested
  split
  next f m _ hparse =>
    obtain ⟨op, name, mode, hlen2, hreq, -, -⟩ := (parsed_iff hlen f m).mp hparse
    obtain ⟨rest, hform⟩ := hreq.form
    have hpre : op <+: Nanotube.Device.Transmit.contents e.mem e.p.pbufs := hform ▸ List.prefix_append _ _
    have hsame : op = requestOp write :=
      (List.prefix_of_prefix_length_le hpre hop (Nat.le_of_eq hlen2)).eq_of_length hlen2
    exact absurd (hsame ▸ hreq) (hno name mode)
  next => rfl

/-- Whether and what the packet opens without a transfer, on its bytes. -/
theorem dispatch_opens_iff (ctx : Context φ H) {e : Packet} {s : State φ H} (hnone : s.handle = none)
    (hfirst : 2 ≤ e.p.first.len) (hlen : totLen e.p.pbufs < 65536) :
    ((∀ write name mode, ¬ IsRequest (requestOp write) (Nanotube.Device.Transmit.contents e.mem e.p.pbufs) name mode) →
        (dispatch ctx e s).opens = s.opens) ∧
      ∀ write name mode, IsRequest (requestOp write) (Nanotube.Device.Transmit.contents e.mem e.p.pbufs) name mode →
        ∃ handle, (dispatch ctx e s).opens = s.opens ++ [⟨name ++ [0], mode ++ [0], write, handle⟩] := by
  rw [dispatch_opens]
  constructor
  · intro hno
    split
    next hop => rw [requested_nil ctx s false hlen ((opcode_eq_iff hfirst _).mp hop) (hno false), List.append_nil]
    next =>
      split
      next hop => rw [requested_nil ctx s true hlen ((opcode_eq_iff hfirst _).mp hop) (hno true), List.append_nil]
      next => exact List.append_nil _
  · intro write name mode hreq
    obtain ⟨rest, hform⟩ := hreq.form
    have hop : opcode e = if write then TFTP_WRQ else TFTP_RRQ :=
      (opcode_eq_iff hfirst _).mpr (hform ▸ List.prefix_append _ _)
    have hparse := (parsed_iff hlen _ _).mpr ⟨requestOp write, name, mode, rfl, hreq, rfl, rfl⟩
    have hrequested : requested ctx write e s =
        [⟨name ++ [0], mode ++ [0], write, (ctx.openFile s.files (name ++ [0]) (mode ++ [0]) write).1⟩] := by
      rw [requested, hnone, hparse]
    refine ⟨(ctx.openFile s.files (name ++ [0]) (mode ++ [0]) write).1, ?_⟩
    cases write with
    | false => rw [if_pos (show opcode e = TFTP_RRQ from hop), hrequested]
    | true => rw [if_neg (by rw [hop]; decide), if_pos (show opcode e = TFTP_WRQ from hop), hrequested]

/-- At any point of any run: a packet opens no file while a transfer is open; otherwise it
    opens one, the file and mode it names, exactly if its bytes are those of a request, and
    then name and mode fit the arrays they are copied to. -/
theorem request_exact (ctx : Context φ H) (files : φ) (es : List Ev) {e : Packet} (env : Env)
    (hfirst : 2 ≤ e.p.first.len) (hlen : totLen e.p.pbufs < 65536) :
    let s := run (step ctx) (tftpInit files) es
    let s' := step ctx s (.packet e env)
    let bs := Nanotube.Device.Transmit.contents e.mem e.p.pbufs
    (s.handle.isSome → s'.opens = s.opens) ∧
      (s.handle = none →
        ((∀ write name mode, ¬ IsRequest (requestOp write) bs name mode) → s'.opens = s.opens) ∧
          ∀ write name mode, IsRequest (requestOp write) bs name mode →
            ((name ++ [0]).length ≤ TFTP_MAX_FILENAME_LEN + 1 ∧ (mode ++ [0]).length ≤ TFTP_MAX_MODE_LEN + 1) ∧
              ∃ handle, s'.opens = s.opens ++ [⟨name ++ [0], mode ++ [0], write, handle⟩]) := by
  intro s s' bs
  have hs : Sound false s := run_sound ctx files es
  have hstep : s' = recv ctx (within env s) e := rfl
  constructor
  · intro hopen
    have hnothing : ∀ write, requested ctx write e (touch (pbufOp .got (within env s))) = [] := by
      intro write
      obtain ⟨h, hh⟩ := Option.isSome_iff_exists.mp hopen
      rw [requested, show (touch (pbufOp .got (within env s))).handle = some h from hh]
    simp only [hstep, recv]
    split
    next => exact sendBytes_opens _ _ _ _
    next =>
      refine (dispatch_opens ctx e _).trans ?_
      rw [hnothing, hnothing, ite_self, ite_self]
      exact List.append_nil _
  · intro hnone
    obtain ⟨-, haddr, hport⟩ := hs.idle hnone
    have hforeign : ¬ Foreign (pbufOp .got (within env s)).toTransfer e := by
      intro hf
      rcases hf with ⟨h, -⟩ | ⟨h, -⟩
      · exact h hport
      · exact h haddr
    have hopens : s'.opens = (dispatch ctx e (touch (pbufOp .got (within env s)))).opens := by
      simp only [hstep, recv]
      rw [if_neg hforeign]
      rfl
    obtain ⟨hno, hyes⟩ := dispatch_opens_iff ctx (s := touch (pbufOp .got (within env s))) hnone hfirst hlen
    rw [hopens]
    refine ⟨hno, fun write name mode hreq => ⟨?_, hyes write name mode hreq⟩⟩
    simp only [List.length_append, List.length_singleton]
    exact ⟨Nat.succ_le_succ hreq.name_len, Nat.succ_le_succ hreq.mode_len⟩

/-- "a" in mode "octet", in three pbufs. -/
def splitRequest : Packet :=
  ⟨7, 1069, fun a => [0, 1, 97, 0, 0, 0, 0, 111, 99, 116, 101, 116, 0].getD a 0, ⟨⟨0, 3⟩, [⟨6, 1⟩, ⟨7, 6⟩]⟩⟩

/-- It opens a file after a packet that is no request. -/
theorem splitRequest_opens :
    let ctx : Context Unit Nat := ⟨fun _ _ _ _ => (some 1, ()), fun _ _ => (), fun _ _ _ => (none, ()), fun _ _ _ _ => (0, ())⟩
    let noise : Ev := .packet { splitRequest with p := ⟨⟨3, 4⟩, []⟩ } ⟨[], true⟩
    ∃ handle, (step ctx (run (step ctx) (tftpInit ()) [noise]) (.packet splitRequest ⟨[], true⟩)).opens =
      [⟨[97, 0], [111, 99, 116, 101, 116, 0], false, handle⟩] := by
  intro ctx noise
  have hreq : IsRequest (requestOp false) (Nanotube.Device.Transmit.contents splitRequest.mem splitRequest.p.pbufs) [97]
      [111, 99, 116, 101, 116] := ⟨⟨[], by decide⟩, by decide, by decide, by decide, by decide⟩
  have hnone : (run (step ctx) (tftpInit ()) [noise]).handle = none := by decide +kernel
  have hopens : (run (step ctx) (tftpInit ()) [noise]).opens = [] := rfl
  obtain ⟨-, handle, h⟩ := ((request_exact ctx () [noise] (e := splitRequest) ⟨[], true⟩ (by decide) (by decide)).2 hnone).2
    false _ _ hreq
  exact ⟨handle, by rw [h, hopens]; rfl⟩

end Nanotube.TftpServer
