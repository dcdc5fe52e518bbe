import FastMM.Book.LevelSpill
import FastMM.Book.SnapshotLoad
import FastMM.Book.SyncedBook
import FastMM.Core.QueuePrints
import FastMM.Core.Rounding
import FastMM.Engine.PooledPositions
import FastMM.Engine.Presence
import FastMM.Engine.RiskBands
import FastMM.Fix.BuiltStream
import FastMM.Fix.ExpectedNumber
import FastMM.Fix.Resend
import FastMM.Gateway.SharedPositions
import FastMM.Gateway.Totals
import FastMM.Itch.Announced
import FastMM.Journal.EngineClock
import FastMM.Journal.Followed
import FastMM.Mdp3.Arbitration
import FastMM.Mold.Delivery
import FastMM.Mold.Transmitter
import FastMM.Ouch.Booked
import FastMM.Ouch.UserRefMap
import FastMM.Quote.HeldSide
import FastMM.Risk.Headroom
import FastMM.Risk.SelfTrade
import FastMM.Sim.AccountHolds
import FastMM.Sim.FeedFollowed
import FastMM.Sim.FillOrKill
import FastMM.Sim.InRecordedOrder
import FastMM.Soup.Resumption
import FastMM.Timers.ExactFiring
import FastMM.Treasury.LedgerText
import FastMM.Treasury.Overdraw
import FastMM.Treasury.SentOnce
import FastMM.Venue.Reconciled
