import Pmfs.Namei.Reuse
import Pmfs.Itable.Grants
import Pmfs.Namei.Fetch
import Pmfs.Replay.Scan
import Pmfs.Replay.Lookup
import Pmfs.Replay.Counter
import Pmfs.Inodes.FreeCount
import Pmfs.Namei.TruncList
import Pmfs.Inodes.Transfer
import Pmfs.Dirs.Lookup
import Pmfs.Dirs.Walks
import Pmfs.Inodes.Slots
import Pmfs.Journal.Unlogged
import Pmfs.Itable.Growth
import Pmfs.Super.Overlay
import Pmfs.Sync.Walk
import Pmfs.Flush.Lines
import Pmfs.Inodes.Falloc
import Pmfs.Inodes.Setattr
import Pmfs.Mount.Options
import Pmfs.Itable.Address
import Pmfs.Itable.Views
import Pmfs.Block.Hints
import Pmfs.Migrate.Blocks
