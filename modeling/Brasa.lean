import Brasa.Lib.Run
import Brasa.Lib.Ring
import Brasa.Lib.DropOldest
import Brasa.Lib.KeyedList
import Brasa.Lib.Greedy
import Brasa.Lib.Columns
import Brasa.Lib.Optstring
import Brasa.Lib.Lfsr
import Brasa.Lib.Period
import Brasa.Lib.Remainder
import Brasa.Lib.Loop
import Brasa.Lib.SharedLock
import Brasa.Buffer.Crc
import Brasa.Buffer.Bitwise
import Brasa.Buffer.Detect
import Brasa.Buffer.Circular
import Brasa.Buffer.Laps
import Brasa.Buffer.Queue
import Brasa.Buffer.Restart
import Brasa.Buffer.Interleaved
import Brasa.Buffer.Lossless
import Brasa.Buffer.Torn
import Brasa.Buffer.Crash
import Brasa.Buffer.Attach
import Brasa.Thread.Rcu
import Brasa.Thread.Snapshot
import Brasa.Thread.Update
import Brasa.Thread.Handles
import Brasa.Thread.Bounded
import Brasa.Thread.Register
import Brasa.Thread.Copies
import Brasa.Thread.Walk
import Brasa.Argparse.Tuple
import Brasa.Argparse.Value
import Brasa.Argparse.Options
import Brasa.Argparse.Table
import Brasa.Argparse.Parse
import Brasa.Argparse.Positional
import Brasa.Argparse.Missing
import Brasa.Argparse.Dispatch
import Brasa.Argparse.Integer
import Brasa.Argparse.Attempts
import Brasa.Argparse.Reuse
import Brasa.Argparse.Report
import Brasa.Argparse.Usage
import Brasa.Chronus.Waiter
import Brasa.Chronus.Wait
import Brasa.Chronus.Chronometer
import Brasa.Pattern.ObjectRepository
import Brasa.Pattern.Registry
import Brasa.Pattern.ObjectFactory
import Brasa.Pattern.Singleton
