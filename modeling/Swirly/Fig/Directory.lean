import Swirly.Fig.PostTrader
import Swirly.Fig.ServiceRun

/-!
# Swirly.Fig.Directory

**The service is a directory.** Seen from outside, the records are no more than two maps from
names: to the markets and to the traders. `Directory.apply` says what a call does to them in
these terms, without sets, indices or sessions: when a call is refused (`none`), and else which
name is given which record. `directory_refines` is that the service is such a directory,
whatever calls are made: orders are not seen in it at all, and the index of the emails, which
the directory does not have, is only another way to ask whether a trader has an email.
-/

namespace Swirly

open Lib (KeySet Table)
open scoped Classical

/-! ### Directories -/

/-- The contracts by name, and the records of the markets and traders by name. -/
@[ext] structure Directory where
  contrs : Set (List Byte)
  market : List Byte → Option MarketBook
  trader : List Byte → Option TraderSess

namespace Directory

/-- A market may join: its contract is known, its name is fit and free, and its dates, if it
has any, are in order. -/
structure AdmitsMarket (d : Directory) (busDay : Int) (mnem contr : List Byte)
    (settlDay expiryDay : Int) : Prop where
  contr : contr ∈ d.contrs
  dated : settlDay ≠ 0 → busDay ≤ expiryDay ∧ expiryDay ≤ settlDay
  undated : settlDay = 0 → expiryDay = 0
  free : d.market mnem = none
  fit : mnemPattern mnem = true

/-- A trader may join: the name is fit and free, and no trader has the email. -/
structure AdmitsTrader (d : Directory) (mnem email : List Byte) : Prop where
  free : d.trader mnem = none
  fit : mnemPattern mnem = true
  email : ∀ n t, d.trader n = some t → t.email.buf ≠ email

/-- Give a name to a market. -/
def setMarket (d : Directory) (mnem : List Byte) (b : MarketBook) : Directory :=
  { d with market := Function.update d.market mnem (some b) }

/-- Give a name to a trader. -/
def setTrader (d : Directory) (mnem : List Byte) (t : TraderSess) : Directory :=
  { d with trader := Function.update d.trader mnem (some t) }

/-- A call, or none where it is refused. -/
noncomputable def apply (d : Directory) : ServiceCall → Option Directory
  | .createMarket busDay alloc mnem display contr settlDay expiryDay state =>
      if d.AdmitsMarket busDay mnem contr settlDay expiryDay ∧ alloc = true then
        some (d.setMarket mnem (newMarket (.assign 16 mnem) (.assign 64 display)
          (.assign 16 contr) settlDay expiryDay state 0 0 0 0 0))
      else none
  | .updateMarket mnem display state =>
      (d.market mnem).map (fun b => d.setMarket mnem (Service.amendMarket display state b))
  | .createTrader alloc mnem display email =>
      if d.AdmitsTrader mnem email ∧ alloc = true then
        some (d.setTrader mnem (newTrader (.assign 16 mnem) (.assign 64 display)
          (.assign 64 email)))
      else none
  | .updateTrader mnem display =>
      (d.trader mnem).map (fun t => d.setTrader mnem (t.setDisplay display))
  | .createOrder _ _ _ => some d

/-- The directory after a call. -/
noncomputable def after (d : Directory) (call : ServiceCall) : Directory :=
  (d.apply call).getD d

end Directory

/-- The directory that the service is. -/
def Service.directory (s : Service) : Directory where
  contrs := {contr | (s.contrs.find? contr).isSome}
  market mnem := (s.markets.find? mnem).map MarketBook.record
  trader mnem := (s.traders.find? mnem).map TraderSess.record

/-! ### The index of the emails -/

namespace Service

variable {s : Service}

/-- The index is linked to traders that are known by the same names and emails. -/
theorem linked_of_same {r r' : Registry} (hl : r.Linked) (hidx : r'.emailIdx = r.emailIdx)
    (hold : ∀ t ∈ r.traders.elems, ∃ t' ∈ r'.traders.elems, t'.emailNode = t.emailNode)
    (hnew : ∀ t' ∈ r'.traders.elems, ∃ t ∈ r.traders.elems, t'.emailNode = t.emailNode) :
    r'.Linked where
  entries n hn := by
    rw [hidx] at hn
    obtain ⟨t, ht, rfl⟩ := hl.entries n hn
    obtain ⟨t', ht', heq⟩ := hold t ht
    exact ⟨t', ht', heq.symm⟩
  indexed t' ht' := by
    obtain ⟨t, ht, heq⟩ := hnew t' ht'
    obtain ⟨n, hn, hemail⟩ := hl.indexed t ht
    rw [hidx]
    exact ⟨n, hn, hemail.trans (congrArg EmailNode.email heq).symm⟩

theorem emailNode_record (t : TraderSess) : t.record.emailNode = t.emailNode := rfl

/-- The index stays linked to the traders when their records stay as they are. -/
theorem linked_of_records {serv : Serv} (hl : s.registry.Linked)
    (h : SameRecords s.serv serv) : ({ s with serv } : Service).registry.Linked := by
  have hnode : ∀ u, (serv.traders.get u).emailNode = (s.serv.traders.get u).emailNode := by
    intro u
    rw [← emailNode_record, h.trader, emailNode_record]
  refine linked_of_same hl rfl (fun t ht => ?_) (fun t ht => ?_)
  · obtain ⟨u, hu, rfl⟩ := mem_traders.mp ht
    rw [← h.traderKeys] at hu
    exact ⟨_, mem_traders.mpr ⟨u, hu, rfl⟩, hnode u⟩
  · obtain ⟨u, hu, rfl⟩ := mem_traders.mp ht
    have hu' : u ∈ s.serv.traders.keys := h.traderKeys ▸ hu
    exact ⟨_, mem_traders.mpr ⟨u, hu', rfl⟩, hnode u⟩

/-- The index, after a trader has been added. -/
theorem linked_addTrader {alloc : Bool} {mnem display email : List Byte}
    (hl : s.registry.Linked) (h : s.registry.Creates alloc mnem email)
    (hfree : .assign 16 mnem ∉ s.serv.traders.keys) :
    (s.addTrader (newTrader (.assign 16 mnem) (.assign 64 display)
      (.assign 64 email))).registry.Linked := by
  have hstep : (TraderCall.apply s.registry (.createTrader alloc mnem display email)).Linked :=
    hl.step
  rw [TraderCall.apply_create h] at hstep
  rw [addTrader_registry hfree]
  exact hstep

/-- Markets are nothing to the index. -/
theorem linked_of_traders {s' : Service} (hl : s.registry.Linked)
    (htraders : s'.serv.traders = s.serv.traders) (hidx : s'.emailIdx = s.emailIdx) :
    s'.registry.Linked := by
  have hmem : ∀ t, t ∈ s'.traders.elems ↔ t ∈ s.traders.elems := fun t => by
    unfold traders
    rw [htraders]
  exact linked_of_same hl hidx (fun t ht => ⟨t, (hmem t).mpr ht, rfl⟩)
    (fun t ht => ⟨t, (hmem t).mp ht, rfl⟩)

/-- **Every call keeps the index linked to the traders.** -/
theorem linked_apply (hl : s.registry.Linked) (call : ServiceCall) :
    (call.apply s).registry.Linked := by
  have hout := call.outcome s
  generalize call.refuses s = refused, call.apply s = s' at hout
  cases hout with
  | marketRefused h => exact hl
  | marketCreated h hfree => exact linked_of_traders hl rfl rfl
  | marketUnknown h => exact hl
  | marketUpdated h => exact linked_of_traders hl rfl rfl
  | traderRefused h => exact hl
  | traderCreated h hfree => exact linked_addTrader hl h hfree
  | traderUnknown h => exact hl
  | @traderUpdated mnem display u h =>
      have hnode : ∀ v, ((s.serv.modifySess u (TraderSess.setDisplay display)
          (TraderSess.setDisplay_mnem display)).traders.get v).emailNode =
          (s.serv.traders.get v).emailNode := by
        intro v
        rw [Serv.modifySess_get]
        split
        · next heq =>
            rw [heq]
            rfl
        · rfl
      refine linked_of_same hl rfl (fun t ht => ?_) (fun t ht => ?_)
      · obtain ⟨v, hv, rfl⟩ := mem_traders.mp ht
        exact ⟨_, mem_traders.mpr ⟨v, hv, rfl⟩, hnode v⟩
      · obtain ⟨v, hv, rfl⟩ := mem_traders.mp ht
        exact ⟨_, mem_traders.mpr ⟨v, hv, rfl⟩, hnode v⟩
  | ordered env a resp =>
      exact linked_of_records hl
        ((SameRecords.createOrder env a).final (SameRecords.refl s.serv))

/-- A service as it is loaded has its index linked to its traders. -/
theorem load_linked (assets : AssetSet) (contrs : ContrSet) (markets : List MarketBook)
    (traders : List TraderSess) (hm : (markets.map MarketBook.mnem).Nodup)
    (hu : (traders.map TraderSess.mnem).Nodup) :
    (load assets contrs markets traders hm hu).registry.Linked := by
  have hsame : (load assets contrs markets traders hm hu).traders = KeySet.ofList traders := by
    unfold Service.traders Table.toSet
    exact congrArg KeySet.ofList (Table.ofList_records hu)
  have hl := Registry.load_linked [] .empty (KeySet.ofList traders : TraderSet)
  have hmem : ∀ t, t ∈ (load assets contrs markets traders hm hu).traders.elems ↔
      t ∈ (KeySet.ofList traders : TraderSet).elems := fun t => by rw [hsame]
  exact linked_of_same hl rfl (fun t ht => ⟨t, (hmem t).mpr ht, rfl⟩)
    (fun t ht => ⟨t, (hmem t).mp ht, rfl⟩)

end Service

/-! ### The directory of the service -/

namespace Service

variable {s : Service} {mnem : List Byte}

theorem directory_market (s : Service) (mnem : List Byte) : s.directory.market mnem =
    (s.findMarket mnem).map (fun m => (s.serv.markets.get m).record) := by
  show (s.markets.find? mnem).map _ = _
  rw [find?_markets, Option.map_map]
  rfl

theorem directory_trader (s : Service) (mnem : List Byte) : s.directory.trader mnem =
    (s.findTrader mnem).map (fun u => (s.serv.traders.get u).record) := by
  show (s.traders.find? mnem).map _ = _
  rw [find?_traders, Option.map_map]
  rfl

/-- The tests of `createMarket`, on the directory. -/
theorem createsMarket_iff {busDay settlDay expiryDay : Int} {alloc : Bool} {contr : List Byte} :
    s.registry.CreatesMarket busDay alloc mnem contr settlDay expiryDay ↔
      s.directory.AdmitsMarket busDay mnem contr settlDay expiryDay ∧ alloc = true := by
  have hcontr : (∃ c ∈ s.registry.contrs, c.buf = contr) ↔ contr ∈ s.directory.contrs := by
    show _ ↔ (s.contrs.find? contr).isSome = true
    rw [← not_iff_not, Bool.not_eq_true, Option.isSome_eq_false_iff, Option.isNone_iff_eq_none,
      KeySet.find?_eq_none_iff]
    simp [registry]
  have hfree : s.registry.markets.find? mnem = none ↔ s.directory.market mnem = none := by
    show _ ↔ (s.markets.find? mnem).map _ = none
    rw [Option.map_eq_none_iff]
    rfl
  constructor
  · intro h
    exact ⟨⟨hcontr.mp h.contr_known, fun hs => ⟨h.bus_le hs, h.expiry_le hs⟩, h.no_expiry,
      hfree.mp h.mnem_free, h.pattern⟩, h.alloc_ok⟩
  · rintro ⟨h, halloc⟩
    exact ⟨hcontr.mpr h.contr, fun hs => (h.dated hs).2, fun hs => (h.dated hs).1, h.undated,
      hfree.mpr h.free, h.fit, halloc⟩

/-- The tests of `createTrader`, on the directory: the index of the emails tells what the
traders have. -/
theorem creates_iff (hl : s.registry.Linked) {alloc : Bool} {email : List Byte} :
    s.registry.Creates alloc mnem email ↔
      s.directory.AdmitsTrader mnem email ∧ alloc = true := by
  have hfree : s.registry.traders.find? mnem = none ↔ s.directory.trader mnem = none := by
    show _ ↔ (s.traders.find? mnem).map _ = none
    rw [Option.map_eq_none_iff]
    rfl
  have hemail : s.registry.emailIdx.find? email = none ↔
      ∀ n t, s.directory.trader n = some t → t.email.buf ≠ email := by
    rw [hl.find?_eq_none_iff]
    constructor
    · intro h n t ht
      obtain ⟨u, hu, rfl⟩ := Option.map_eq_some_iff.mp ht
      exact h u (KeySet.mem_of_find? hu).1
    · intro h u hu
      have hfind : s.traders.find? u.mnem.buf = some u := KeySet.find?_of_mem hu
      refine h u.mnem.buf u.record ?_
      show (s.traders.find? u.mnem.buf).map _ = _
      rw [hfind]
      rfl
  constructor
  · intro h
    exact ⟨⟨hfree.mp h.mnem_free, h.pattern, hemail.mp h.email_free⟩, h.alloc_ok⟩
  · rintro ⟨h, halloc⟩
    exact ⟨hfree.mpr h.free, hemail.mpr h.email, h.fit, halloc⟩

/-- Orders are not seen in the directory. -/
theorem directory_of_records {serv : Serv} (h : SameRecords s.serv serv) :
    ({ s with serv } : Service).directory = s.directory := by
  refine Directory.ext rfl (funext fun n => ?_) (funext fun n => ?_)
  · rw [directory_market, directory_market]
    unfold findMarket
    rw [show serv.markets.keys = s.serv.markets.keys from h.marketKeys]
    exact congrArg (fun f => Option.map f _) (funext h.market)
  · rw [directory_trader, directory_trader]
    unfold findTrader
    rw [show serv.traders.keys = s.serv.traders.keys from h.traderKeys]
    exact congrArg (fun f => Option.map f _) (funext h.trader)

end Service

/-! ### Every call -/

section Refinement

variable {s : Service}

theorem Directory.setMarket_market (d : Directory) (mnem : List Byte) (b : MarketBook)
    (n : List Byte) :
    (d.setMarket mnem b).market n = if n = mnem then some b else d.market n :=
  Function.update_apply _ _ _ _

theorem Directory.setTrader_trader (d : Directory) (mnem : List Byte) (t : TraderSess)
    (n : List Byte) :
    (d.setTrader mnem t).trader n = if n = mnem then some t else d.trader n :=
  Function.update_apply _ _ _ _

namespace Service

/-- A new market is in the directory under its name. -/
theorem directory_addMarket {b : MarketBook} (hfree : b.mnem ∉ s.serv.markets.keys)
    (hrecord : b.record = b) :
    (s.addMarket b).directory = s.directory.setMarket b.mnem.buf b := by
  have hmarkets : (s.addMarket b).markets = s.markets.insert b := Table.toSet_add hfree
  have hnone : s.markets.find? b.mnem.buf = none := by
    rw [find?_markets, Option.map_eq_none_iff]
    refine List.find?_eq_none.mpr (fun m hm heq => hfree ?_)
    rwa [← FixedString.ext (of_decide_eq_true heq)]
  refine Directory.ext rfl (funext fun n => ?_) rfl
  rw [Directory.setMarket_market]
  show ((s.addMarket b).markets.find? n).map MarketBook.record = _
  rw [hmarkets]
  split
  · next hn =>
      subst hn
      rw [KeySet.find?_insert_self hnone, Option.map_some, hrecord]
  · next hn =>
      rw [KeySet.find?_insert_of_ne s.markets hn]
      rfl

/-- A new trader is in the directory under its name. -/
theorem directory_addTrader {t : TraderSess} (hfree : t.mnem ∉ s.serv.traders.keys)
    (hrecord : t.record = t) :
    (s.addTrader t).directory = s.directory.setTrader t.mnem.buf t := by
  have htraders : (s.addTrader t).traders = s.traders.insert t := Table.toSet_add hfree
  have hnone : s.traders.find? t.mnem.buf = none := by
    rw [find?_traders, Option.map_eq_none_iff]
    refine List.find?_eq_none.mpr (fun u hu heq => hfree ?_)
    rwa [← FixedString.ext (of_decide_eq_true heq)]
  refine Directory.ext rfl rfl (funext fun n => ?_)
  rw [Directory.setTrader_trader]
  show ((s.addTrader t).traders.find? n).map TraderSess.record = _
  rw [htraders]
  split
  · next hn =>
      subst hn
      rw [KeySet.find?_insert_self hnone, Option.map_some, hrecord]
  · next hn =>
      rw [KeySet.find?_insert_of_ne s.traders hn]
      rfl

theorem amendMarket_record (display : Option (List Byte)) (state : Option Nat) (b : MarketBook) :
    (amendMarket display state b).record = amendMarket display state b.record := by
  cases display <;> cases state <;> rfl

/-- A market that is updated keeps its name. -/
theorem directory_modifyBook {m : Mnem} {f : MarketBook → MarketBook}
    (hf : ∀ b, (f b).mnem = b.mnem) (hfind : s.findMarket m.buf = some m)
    (hrecord : ∀ b, (f b).record = f b.record) :
    ({ s with serv := s.serv.modifyBook m f hf } : Service).directory =
      s.directory.setMarket m.buf (f (s.serv.markets.get m).record) := by
  refine Directory.ext rfl (funext fun n => ?_) rfl
  rw [Directory.setMarket_market, directory_market, directory_market]
  show (s.findMarket n).map _ = _
  split
  · next hn =>
      subst hn
      rw [hfind, Option.map_some]
      show some ((s.serv.modifyBook m f hf).markets.get m).record = _
      rw [Serv.modifyBook_get_self, hrecord]
  · next hn =>
      refine Option.map_congr (fun m' hm' => ?_)
      have hne : m' ≠ m := by
        rintro rfl
        exact hn (findMarket_some hm').2.symm
      show ((s.serv.modifyBook m f hf).markets.get m').record = _
      rw [Serv.modifyBook_get_of_ne hne]

/-- A trader that is updated keeps its name. -/
theorem directory_modifySess {u : Mnem} {f : TraderSess → TraderSess}
    (hf : ∀ t, (f t).mnem = t.mnem) (hfind : s.findTrader u.buf = some u)
    (hrecord : ∀ t, (f t).record = f t.record) :
    ({ s with serv := s.serv.modifySess u f hf } : Service).directory =
      s.directory.setTrader u.buf (f (s.serv.traders.get u).record) := by
  refine Directory.ext rfl rfl (funext fun n => ?_)
  rw [Directory.setTrader_trader, directory_trader, directory_trader]
  show (s.findTrader n).map _ = _
  split
  · next hn =>
      subst hn
      rw [hfind, Option.map_some]
      show some ((s.serv.modifySess u f hf).traders.get u).record = _
      rw [Serv.modifySess_get_self, hrecord]
  · next hn =>
      refine Option.map_congr (fun u' hu' => ?_)
      have hne : u' ≠ u := by
        rintro rfl
        exact hn (findTrader_some hu').2.symm
      show ((s.serv.modifySess u f hf).traders.get u').record = _
      rw [Serv.modifySess_get_of_ne hne]

/-- **One call of the service is one call of the directory.** -/
theorem directory_apply (hl : s.registry.Linked) (call : ServiceCall) :
    (call.refuses s = true ↔ s.directory.apply call = none) ∧
      (call.apply s).directory = s.directory.after call := by
  have hout := call.outcome s
  generalize call.refuses s = refused, call.apply s = s' at hout
  unfold Directory.after
  cases hout with
  | marketRefused h =>
      rw [createsMarket_iff] at h
      rw [Directory.apply, if_neg h]
      exact ⟨by simp, rfl⟩
  | marketCreated h hfree =>
      have hname := assign_of_pattern h.pattern
      rw [createsMarket_iff] at h
      rw [Directory.apply, if_pos h]
      refine ⟨by simp, ?_⟩
      rw [directory_addMarket hfree rfl, Option.getD_some]
      exact congrArg (fun n => s.directory.setMarket n _) hname
  | marketUnknown h =>
      rw [Directory.apply, directory_market, h]
      exact ⟨by simp, rfl⟩
  | @marketUpdated mnem display state m h =>
      obtain ⟨-, hm⟩ := findMarket_some h
      rw [Directory.apply, directory_market, h]
      refine ⟨by simp, ?_⟩
      subst hm
      exact directory_modifyBook (amendMarket_mnem display state) h (amendMarket_record _ _)
  | traderRefused h =>
      rw [creates_iff hl] at h
      rw [Directory.apply, if_neg h]
      exact ⟨by simp, rfl⟩
  | traderCreated h hfree =>
      have hname := h.mnem_eq
      rw [creates_iff hl] at h
      rw [Directory.apply, if_pos h]
      refine ⟨by simp, ?_⟩
      rw [directory_addTrader hfree rfl, Option.getD_some]
      exact congrArg (fun n => s.directory.setTrader n _) hname
  | traderUnknown h =>
      rw [Directory.apply, directory_trader, h]
      exact ⟨by simp, rfl⟩
  | @traderUpdated mnem display u h =>
      obtain ⟨-, hu⟩ := findTrader_some h
      rw [Directory.apply, directory_trader, h]
      refine ⟨by simp, ?_⟩
      subst hu
      exact directory_modifySess (TraderSess.setDisplay_mnem display) h (fun _ => rfl)
  | ordered env a resp =>
      refine ⟨by simp [Directory.apply], ?_⟩
      exact directory_of_records ((SameRecords.createOrder env a).final (SameRecords.refl s.serv))

end Service

end Refinement

/-- **The service is the directory**, after any calls, orders among them: it refuses the calls
that the directory refuses, and shows what the directory has. -/
theorem directory_refines {assets : AssetSet} {contrs : ContrSet} {markets : List MarketBook}
    {traders : List TraderSess} (hm : (markets.map MarketBook.mnem).Nodup)
    (hu : (traders.map TraderSess.mnem).Nodup) (calls : List ServiceCall) (call : ServiceCall) :
    (calls.foldl ServiceCall.apply (.load assets contrs markets traders hm hu)).directory =
        calls.foldl Directory.after (Service.load assets contrs markets traders hm hu).directory ∧
      (call.refuses (calls.foldl ServiceCall.apply (.load assets contrs markets traders hm hu)) =
          true ↔
        (calls.foldl Directory.after
          (Service.load assets contrs markets traders hm hu).directory).apply call = none) := by
  have hrun : ∀ s : Service, s.registry.Linked →
      (calls.foldl ServiceCall.apply s).registry.Linked ∧
        (calls.foldl ServiceCall.apply s).directory =
          calls.foldl Directory.after s.directory := by
    induction calls with
    | nil => exact fun s hl => ⟨hl, rfl⟩
    | cons call calls ih =>
        intro s hl
        obtain ⟨hlinked, hdir⟩ := ih (call.apply s) (Service.linked_apply hl call)
        refine ⟨hlinked, ?_⟩
        rw [List.foldl_cons, List.foldl_cons, hdir, (Service.directory_apply hl call).2]
  obtain ⟨hlinked, hdir⟩ := hrun _ (Service.load_linked assets contrs markets traders hm hu)
  refine ⟨hdir, ?_⟩
  rw [← hdir]
  exact (Service.directory_apply hlinked call).1

namespace Mock

/-- The service is loaded with MARAYL and no market. -/
def calls : List ServiceCall :=
  [joinCall, .createMarket 2456728 true market.buf [] contr.buf 2456730 2456729 1, bidCall]

end Mock

/-- DOLFIN cannot join again. -/
theorem rejoin_refused : Mock.joinCall.refuses (Mock.calls.foldl ServiceCall.apply
    (.load .empty Mock.service.contrs [] [newTrader Mock.marayl (.assign 64 []) (.assign 64 [64])]
      (by decide) (by decide))) = true := by
  refine (directory_refines (by decide) (by decide) Mock.calls Mock.joinCall).2.mpr ?_
  rw [Mock.joinCall, Directory.apply, if_neg]
  rintro ⟨h, -⟩
  have hfree := h.free
  rw [← (directory_refines (by decide) (by decide) Mock.calls Mock.joinCall).1] at hfree
  revert hfree
  decide

end Swirly
